import Gandr.Lib.Links
import Gandr.Mmap.Types

/-! The memory map of `bal/mmap.c` with explicit state.

A node is the address of a `struct mmap_entry`, and address 0 is `NULL`. The
red-black tree of `gd_tree.h` enters through what its macros promise: `tree`
lists the linked nodes in the order an in-order walk meets them. The links of
a node outside the tree are those `mmap_free_entry` leaves behind, its left
link being the free list link, and the macros applied to such a node follow
them as their text does.

The last three fields of the state are read by no function of the source. They
record the pages taken to hold nodes, how often a node was freed since the map
was last cleaned, and how many tree operations were applied to a node that was
not linked at that moment. -/

namespace Gandr.Mmap

abbrev Ptr := ℕ

/-- What the code takes from its compilation target and its linker. -/
structure Target where
  /-- width of `uintptr_t` and `size_t` -/
  ptrBits : ℕ
  /-- `sizeof (mmap_entry)` -/
  sizeofEntry : ℕ
  staticSlots : Ptr
  ptrBits_le : ptrBits ≤ 64
  page_lt : 4096 < 2^ptrBits
  sizeofEntry_pos : 0 < sizeofEntry
  slots_page : 2 * sizeofEntry ≤ 4096
  staticSlots_pos : 0 < staticSlots

/-- 64-bit targets; the slots sit in the image that starts at 0x10000. -/
def Target.lp64 : Target where
  ptrBits := 64
  sizeofEntry := 72
  staticSlots := 0x20000
  ptrBits_le := by decide
  page_lt := by decide
  sizeofEntry_pos := by decide
  slots_page := by decide
  staticSlots_pos := by decide

def Target.uintptrMax (T : Target) : ℕ := Word.max T.ptrBits

def mmapStaticSlots : ℕ := 32

structure State where
  entry : Ptr → MemoryMapEntry
  rbeLeft : Ptr → Ptr
  tree : List Ptr
  lastFreed : Ptr
  allocNext : Ptr
  allocatable : ℕ
  mmapKey : ℕ
  overlapPrecedence : List MemoryType
  nodePages : List ℕ
  frees : ℕ
  staleCalls : ℕ

def State.initial (T : Target) : State where
  entry := fun _ => { type := .reservedMemoryType, physicalStart := 0, size := 0 }
  rbeLeft := fun _ => 0
  tree := []
  lastFreed := 0
  allocNext := T.staticSlots
  allocatable := mmapStaticSlots
  mmapKey := 0
  overlapPrecedence := Mmap.overlapPrecedence
  nodePages := []
  frees := 0
  staleCalls := 0

namespace State

def setEntry (s : State) (n : Ptr) (e : MemoryMapEntry) : State :=
  { s with entry := Function.update s.entry n e }

def bumpKey (s : State) : State := { s with mmapKey := s.mmapKey + 1 }

/-- The entries an in-order walk reads. -/
def entries (s : State) : List MemoryMapEntry := s.tree.map s.entry

/-- `RB_SET` for a node that is linked, which `tree` now lists. -/
def link (s : State) (elm : Ptr) (tree : List Ptr) : State :=
  { s with tree := tree, rbeLeft := Function.update s.rbeLeft elm 0 }

/-- Record a tree operation on `elm`. -/
def use (s : State) (elm : Ptr) : State :=
  if elm ∈ s.tree then s else { s with staleCalls := s.staleCalls + 1 }

end State

/-- `RB_NEXT`. A node outside the tree has no right link and no parent. -/
def rbNext (s : State) (elm : Ptr) : Ptr := Links.after s.tree elm

/-- `RB_PREV`. Outside the tree the left link is followed, and the node it
leads to is on the free list too and has no right link. -/
def rbPrev (s : State) (elm : Ptr) : Ptr :=
  if elm ∈ s.tree then Links.before s.tree elm else s.rbeLeft elm

/-- `RB_INSERT` with `mmap_entry_cmp`: the linked node of equal start, or
`NULL` once `elm` is linked. A node at address 0 is not found again, since the
link to it is `NULL`. -/
def rbInsert (s : State) (elm : Ptr) : Ptr × State :=
  let key := (s.entry elm).physicalStart
  match s.tree.find? (fun n => (s.entry n).physicalStart = key) with
  | some old => (old, s)
  | none =>
    let below := fun n => decide ((s.entry n).physicalStart < key)
    (0, s.link elm (if elm = 0 then s.tree
      else s.tree.takeWhile below ++ elm :: s.tree.dropWhile below))

/-- The nodes met by following left links; `fuel` bounds a cyclic chain. -/
def leftSpine (left : Ptr → Ptr) : ℕ → Ptr → List Ptr
  | 0, _ => []
  | fuel + 1, p => if p = 0 then [] else p :: leftSpine left fuel (left p)

/-- `RB_REMOVE`. For a node outside the tree the macro finds neither a right
link nor a parent, so the left link becomes the root. -/
def rbRemove (s : State) (elm : Ptr) : State :=
  if elm ∈ s.tree then { s.use elm with tree := s.tree.erase elm }
  else { s.use elm with tree := (leftSpine s.rbeLeft s.frees (s.rbeLeft elm)).reverse }

def mmapFreeEntry (s : State) (ent : Ptr) : State :=
  { s with rbeLeft := Function.update s.rbeLeft ent s.lastFreed
           lastFreed := ent
           frees := s.frees + 1 }

/-- The tests of `merge_adjacent` on two neighbours; `NULL` fails them. -/
def Mergeable (s : State) (left right : Ptr) : Prop :=
  (s.entry left).type = (s.entry right).type ∧
    (s.entry left).physicalEnd = (s.entry right).physicalStart

instance (s : State) (left right : Ptr) : Decidable (Mergeable s left right) :=
  inferInstanceAs (Decidable (_ ∧ _))

def grown (s : State) (kept gone : Ptr) : MemoryMapEntry :=
  { s.entry kept with size := Word.add 64 (s.entry kept).size (s.entry gone).size }

/-- Grow `kept` over `gone`, then unlink and free `gone`. -/
def absorb (s : State) (kept gone : Ptr) : State :=
  (mmapFreeEntry (rbRemove (s.setEntry kept (grown s kept gone)) gone) gone).bumpKey

def mergeAdjacent (s : State) (middle : Ptr) : State :=
  let s := (s.use middle).use middle
  let prev := rbPrev s middle
  let next := rbNext s middle
  let (s, middle) :=
    if prev ≠ 0 ∧ Mergeable s prev middle then (absorb s prev middle, prev) else (s, middle)
  if next ≠ 0 ∧ Mergeable s middle next then absorb s middle next else s

/-- Hand a page over to the node pool. -/
def takeNodePage (s : State) (page slots : ℕ) : State :=
  { s with allocNext := page, allocatable := slots, nodePages := page :: s.nodePages }

/-- `neighbour` has the wanted type and ends where `mme` starts. -/
def PrevFits (s : State) (type : MemoryType) (mme neighbour : Ptr) : Prop :=
  neighbour ≠ 0 ∧ (s.entry neighbour).type = type ∧
    (s.entry neighbour).physicalEnd = (s.entry mme).physicalStart

/-- `neighbour` has the wanted type and starts where `mme` ends. -/
def NextFits (s : State) (type : MemoryType) (mme neighbour : Ptr) : Prop :=
  neighbour ≠ 0 ∧ (s.entry neighbour).type = type ∧
    (s.entry mme).physicalEnd = (s.entry neighbour).physicalStart

instance (s : State) (type : MemoryType) (mme neighbour : Ptr) :
    Decidable (PrevFits s type mme neighbour) := inferInstanceAs (Decidable (_ ∧ _))

instance (s : State) (type : MemoryType) (mme neighbour : Ptr) :
    Decidable (NextFits s type mme neighbour) := inferInstanceAs (Decidable (_ ∧ _))

/-- Drop the first `n` bytes of an entry. -/
def dropFront (e : MemoryMapEntry) (n : ℕ) : MemoryMapEntry :=
  { e with physicalStart := Word.add 64 e.physicalStart n, size := Word.sub 64 e.size n }

/-- Move the first `n` bytes of `mme` to the entry that ends there. -/
def slicePrev (s : State) (mme neighbour : Ptr) (n : ℕ) : State :=
  let s := s.setEntry neighbour { s.entry neighbour with
    size := Word.add 64 (s.entry neighbour).size n }
  s.setEntry mme (dropFront (s.entry mme) n)

/-- Move the last `n` bytes of `mme` to the entry that starts after them. -/
def sliceNext (s : State) (mme neighbour : Ptr) (n : ℕ) : State :=
  let s := s.setEntry neighbour { s.entry neighbour with
    size := Word.add 64 (s.entry neighbour).size n
    physicalStart := Word.sub 64 (s.entry neighbour).physicalStart n }
  s.setEntry mme { s.entry mme with size := Word.sub 64 (s.entry mme).size n }

/-- Move the first `n` bytes of `mme` to `newEntry` and link it. -/
def sliceNew (s : State) (mme newEntry : Ptr) (type : MemoryType) (n : ℕ) : State :=
  let s := s.setEntry newEntry { s.entry newEntry with
    type := type
    physicalStart := (s.entry mme).physicalStart
    size := n
    attributes := (s.entry mme).attributes }
  (rbInsert (s.setEntry mme (dropFront (s.entry mme) n)) newEntry).2

/-- `4096 / sizeof (mmap_entry)`. -/
def Target.slotsPerPage (T : Target) : ℕ := 4096 / T.sizeofEntry

def Target.toPtr (T : Target) (a : ℕ) : Ptr := a % 2^T.ptrBits

/-- Take one page of the conventional entry `mme` for nodes. Where the branch
of the next neighbour breaks off, nothing is taken. -/
def refillFrom (T : Target) (s : State) (mme : Ptr) : State :=
  let m := s.entry mme
  if m.size = 4096 then
    let s := takeNodePage s (T.toPtr m.physicalStart) T.slotsPerPage
    (mergeAdjacent (s.setEntry mme { m with type := .loaderData }) mme).bumpKey
  else if PrevFits s .loaderData mme (rbPrev s mme) then
    let s := takeNodePage s (T.toPtr m.physicalStart) T.slotsPerPage
    (slicePrev s mme (rbPrev s mme) 4096).bumpKey
  else if NextFits s .loaderData mme (rbNext s mme) then
    if T.uintptrMax < m.physicalEnd then s
    else
      let next := rbNext s mme
      let s := sliceNext s mme next 4096
      (takeNodePage s (T.toPtr (s.entry next).physicalStart) T.slotsPerPage).bumpKey
  else
    let page := T.toPtr m.physicalStart
    let s := sliceNew (takeNodePage s page (T.slotsPerPage - 1)) mme page .loaderData 4096
    ({ s with allocNext := s.allocNext + T.sizeofEntry }).bumpKey

/-- The `RB_FOREACH` of `mmap_alloc_entry` over the nodes still to visit. -/
def refill (T : Target) (s : State) : List Ptr → State
  | [] => s
  | mme :: rest =>
    if T.uintptrMax < Word.add 64 (s.entry mme).physicalStart 4096 then s
    else if (s.entry mme).type = .conventionalMemory then refillFrom T s mme
    else refill T s rest

/-- `mmap_alloc_entry`; the error is the text of the panic. -/
def mmapAllocEntry (T : Target) (s : State) : Except String (Ptr × State) :=
  if s.lastFreed ≠ 0 then
    .ok (s.lastFreed, { s with lastFreed := s.rbeLeft s.lastFreed })
  else
    let s := if s.allocatable = 0 then refill T s s.tree else s
    if s.allocatable = 0 then .error "Out of memory"
    else .ok (s.allocNext, { s with
      allocNext := s.allocNext + T.sizeofEntry
      allocatable := s.allocatable - 1 })

/-- How a call that changes the map ends. -/
inductive Outcome where
  | returned (s : State)
  | panicked (message : String) (s : State)
  | outOfFuel (s : State)

namespace Outcome

def state : Outcome → State
  | returned s => s
  | panicked _ s => s
  | outOfFuel s => s

def andThen : Outcome → (State → Outcome) → Outcome
  | returned s, f => f s
  | panicked m s, _ => panicked m s
  | outOfFuel s, _ => outOfFuel s

end Outcome

/-- The tail of `fix_overlap`: `second` is promoted, `first` ends before it
and the rest is added again. -/
def splitOverlap (add : MemoryMapEntry → State → Outcome) (s : State)
    (first second : Ptr) (type : MemoryType) (newEntry : MemoryMapEntry) : Outcome :=
  let f := s.entry first
  let n := s.entry second
  let s := s.setEntry second { n with
    attributes := f.attributes ||| n.attributes
    type := type
    size := Word.sub 64 newEntry.physicalStart n.physicalStart }
  let s := s.setEntry first { f with
    size := Word.sub 64 n.physicalStart f.physicalStart }
  add newEntry s

/-- `fix_overlap`, over the two functions it calls. -/
def fixOverlapBody (fix : Ptr → State → Outcome) (add : MemoryMapEntry → State → Outcome)
    (first : Ptr) (s : State) : Outcome :=
  if first = 0 then .returned s
  else
    let s := s.use first
    let second := rbNext s first
    if second = 0 then .returned s
    else
      let f := s.entry first
      let n := s.entry second
      if f.physicalEnd ≤ n.physicalStart then .returned s
      else
        let type := higherPrecedence s.overlapPrecedence f.type n.type
        if f.physicalEnd < n.physicalEnd then
          if type = f.type then
            let size := Word.sub 64 n.physicalEnd f.physicalEnd
            .returned (s.setEntry second { n with
              size := size
              physicalStart := Word.sub 64 n.physicalEnd size })
          else if type = n.type then
            .returned (s.setEntry first { f with
              size := Word.sub 64 n.physicalStart f.physicalStart })
          else
            splitOverlap add s first second type
              { type := type
                physicalStart := f.physicalEnd
                size := Word.sub 64 n.physicalEnd f.physicalEnd
                attributes := n.attributes }
        else if n.physicalEnd < f.physicalEnd then
          if type = f.type then
            fix first (mmapFreeEntry (rbRemove s second) second)
          else
            splitOverlap add s first second type
              { type := f.type
                physicalStart := n.physicalEnd
                size := Word.sub 64 f.physicalEnd n.physicalEnd
                attributes := f.attributes }
        else
          let s := s.setEntry second { n with type := type }
          .returned (s.setEntry first { f with
            size := Word.sub 64 n.physicalStart f.physicalStart })

/-- The second `RB_INSERT` of `mmap_add_entry`, which must not meet an equal
start. -/
def reinsert (newent : Ptr) (s : State) (k : State → Outcome) : Outcome :=
  let r := rbInsert s newent
  if r.1 ≠ 0 then .panicked "Bad memory map tree?" r.2 else k r.2

/-- `mmap_add_entry` where `oldent` starts where the new entry does. -/
def placeOld (fix : Ptr → State → Outcome) (entry : MemoryMapEntry) (newent oldent : Ptr)
    (s : State) : Outcome :=
  let old := s.entry oldent
  let type := higherPrecedence s.overlapPrecedence old.type entry.type
  if old.size = entry.size then
    let s := mmapFreeEntry (s.setEntry oldent { old with type := type }) newent
    .returned (mergeAdjacent s oldent)
  else if entry.size < old.size then
    let s := s.setEntry newent { entry with type := type }
    let s := s.setEntry oldent (dropFront old entry.size)
    reinsert newent s fun s => .returned (mergeAdjacent s newent)
  else
    let s := s.setEntry oldent { old with type := type }
    let s := s.setEntry newent (dropFront entry old.size)
    reinsert newent s fun s =>
      (fix newent s).andThen fun s => .returned (mergeAdjacent s newent)

/-- `mmap_add_entry` where no entry starts where the new one does. -/
def placeNew (fix : Ptr → State → Outcome) (newent : Ptr) (s : State) : Outcome :=
  (fix newent s).andThen fun s =>
    (fix (rbPrev s newent) s).andThen fun s => .returned (mergeAdjacent s newent)

/-- `mmap_add_entry` from `mmap_alloc_entry` on, for an aligned entry. -/
def insertEntry (T : Target) (fix : Ptr → State → Outcome)
    (entry : MemoryMapEntry) (s : State) : Outcome :=
  match mmapAllocEntry T s with
  | .error message => .panicked message s
  | .ok (newent, s) =>
    let r := rbInsert (s.setEntry newent entry) newent
    (if r.1 ≠ 0 then placeOld fix entry newent r.1 r.2
      else placeNew fix newent r.2).andThen fun s => .returned s.bumpKey

/-- The unusable page that a partly covered page becomes. -/
def unusablePage (start : ℕ) : MemoryMapEntry :=
  { type := .unusableMemory, physicalStart := start, size := 0x1000 }

def alignDown (a : ℕ) : ℕ := a - a % 0x1000

/-- What is left of an entry after its first page, when it starts inside one. -/
def trimFront (entry : MemoryMapEntry) : Option MemoryMapEntry :=
  let gap := 0x1000 - entry.physicalStart % 0x1000
  if entry.physicalStart % 0x1000 = 0 then some entry
  else if gap < entry.size then
    some { entry with
      size := entry.size - gap
      physicalStart := Word.add 64 (alignDown entry.physicalStart) 0x1000 }
  else none

/-- What is left of an entry before its last page, when it ends inside one. -/
def trimBack (entry : MemoryMapEntry) : Option MemoryMapEntry :=
  if entry.size % 0x1000 = 0 then some entry
  else if alignDown entry.size = 0 then none
  else some { entry with size := alignDown entry.size }

/-- `mmap_add_entry`, over the two functions it calls. -/
def mmapAddEntryBody (T : Target) (fix : Ptr → State → Outcome)
    (add : MemoryMapEntry → State → Outcome) (entry : MemoryMapEntry) (s : State) : Outcome :=
  if entry.size = 0 then .returned s
  else
    (if entry.physicalStart % 0x1000 = 0 then .returned s
      else add (unusablePage (alignDown entry.physicalStart)) s).andThen fun s =>
    match trimFront entry with
    | none => .returned s
    | some entry =>
      (if entry.size % 0x1000 = 0 then .returned s
        else add (unusablePage (alignDown entry.physicalEnd)) s).andThen fun s =>
      match trimBack entry with
      | none => .returned s
      | some entry => insertEntry T fix entry s

/- The recursion of `fix_overlap` and `mmap_add_entry`. `fuel` bounds the depth
of the call stack. -/
mutual

def fixOverlap (T : Target) : ℕ → Ptr → State → Outcome
  | 0 => fun _ s => .outOfFuel s
  | fuel + 1 => fixOverlapBody (fixOverlap T fuel) (mmapAddEntry T fuel)

def mmapAddEntry (T : Target) : ℕ → MemoryMapEntry → State → Outcome
  | 0 => fun _ s => .outOfFuel s
  | fuel + 1 => mmapAddEntryBody T (fixOverlap T fuel) (mmapAddEntry T fuel)

end

def enomem : ℕ := 12

/-- What `gd_alloc_pages` returns, what it stores through `presult`, and the
state it leaves. -/
structure AllocReply where
  rv : ℕ
  presult : Option Ptr
  state : State

/-- Carve `n` bytes of the given type out of the conventional entry `mme`. -/
def allocFrom (T : Target) (type : MemoryType) (n : ℕ) (s : State) (mme : Ptr) :
    Except String AllocReply :=
  let m := s.entry mme
  if m.size = n then
    .ok ⟨0, some (T.toPtr m.physicalStart),
      (mergeAdjacent (s.setEntry mme { m with type := type }) mme).bumpKey⟩
  else if PrevFits s type mme (rbPrev s mme) then
    .ok ⟨0, some (T.toPtr m.physicalStart), (slicePrev s mme (rbPrev s mme) n).bumpKey⟩
  else if NextFits s type mme (rbNext s mme) then
    if T.uintptrMax < m.physicalEnd then .ok ⟨enomem, none, s⟩
    else
      let next := rbNext s mme
      let s := sliceNext s mme next n
      .ok ⟨0, some (T.toPtr (s.entry next).physicalStart), s.bumpKey⟩
  else
    match mmapAllocEntry T s with
    | .error message => .error message
    | .ok (newEntry, s) =>
      .ok ⟨0, some (T.toPtr m.physicalStart), (sliceNew s mme newEntry type n).bumpKey⟩

/-- The `RB_FOREACH` of `gd_alloc_pages` over the nodes still to visit. -/
def allocSearch (T : Target) (type : MemoryType) (n : ℕ) (s : State) :
    List Ptr → Except String AllocReply
  | [] => .ok ⟨enomem, none, s⟩
  | mme :: rest =>
    if T.uintptrMax < Word.add 64 (s.entry mme).physicalStart n then .ok ⟨enomem, none, s⟩
    else if (s.entry mme).type = .conventionalMemory ∧ n ≤ (s.entry mme).size then
      allocFrom T type n s mme
    else allocSearch T type n s rest

def gdAllocPages (T : Target) (type : MemoryType) (count : ℕ) (s : State) :
    Except String AllocReply :=
  if count = 0 then .ok ⟨0, none, s⟩
  else allocSearch T type (Word.mul T.ptrBits count 4096) s s.tree

/-- The entry `gd_free_pages` adds. -/
def freeEntry (T : Target) (startAddress : Ptr) (count : ℕ) : MemoryMapEntry :=
  { type := .conventionalMemory
    physicalStart := startAddress
    size := Word.mul T.ptrBits count 4096 }

/-- `gd_free_pages`: conventional memory is added while the table that lets it
win is in force. -/
def gdFreePages (T : Target) (fuel : ℕ) (startAddress : Ptr) (count : ℕ) (s : State) : Outcome :=
  (mmapAddEntry T fuel (freeEntry T startAddress count)
      { s with overlapPrecedence := freeOverlapPrecedence }).andThen
    fun t => .returned { t with overlapPrecedence := s.overlapPrecedence }

/-- `mmap_clean`. The free list is given up, and the count of it starts again. -/
def mmapClean (T : Target) (s : State) : State :=
  { s with
    tree := []
    allocNext := T.staticSlots
    allocatable := mmapStaticSlots
    lastFreed := 0
    frees := 0 }

end Gandr.Mmap
