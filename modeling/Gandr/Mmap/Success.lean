import Gandr.Mmap.Refill

/-! When `gd_alloc_pages` succeeds. The search ends at the first conventional entry that
is large enough for the bytes as computed in `size_t`; there the branch of the next
neighbour can break off, and a dry pool can end in a panic. -/

namespace Gandr.Mmap

/-- Some conventional entry has `N` bytes below the address limit. -/
def Room (T : Target) (s : State) (N : ℕ) : Prop :=
  ∃ e ∈ s.entries, e.type = .conventionalMemory ∧ N ≤ e.size ∧
    e.physicalStart + N ≤ T.uintptrMax

/-- The first conventional entry of at least `n` bytes. -/
def firstFit (s : State) (n : ℕ) : Option Ptr :=
  s.tree.find? fun k => (s.entry k).type = .conventionalMemory ∧ n ≤ (s.entry k).size

def firstConventional (s : State) : Option Ptr :=
  s.tree.find? fun k => decide ((s.entry k).type = .conventionalMemory)

/-- The branch of the next neighbour breaks off at `m`. -/
def CutOff (T : Target) (s : State) (type : MemoryType) (n : ℕ) (m : Ptr) : Prop :=
  (s.entry m).size ≠ n ∧ ¬ PrevFits s type m (rbPrev s m) ∧ NextFits s type m (rbNext s m) ∧
    T.uintptrMax < (s.entry m).physicalStart + (s.entry m).size

/-- A new node is needed for the pages of `m`, and the pool is dry. -/
def Dry (s : State) (type : MemoryType) (n : ℕ) (m : Ptr) : Prop :=
  (s.entry m).size ≠ n ∧ ¬ PrevFits s type m (rbPrev s m) ∧ ¬ NextFits s type m (rbNext s m) ∧
    ¬ PoolReady s

/-- No page for nodes can be taken from `m` either. -/
def Starved (T : Target) (s : State) (type : MemoryType) (n : ℕ) (m : Ptr) : Prop :=
  Dry s type n m ∧ firstConventional s = some m ∧
    (T.uintptrMax < (s.entry m).physicalStart + 4096 ∨
      TakesLast s m ∧ T.uintptrMax < (s.entry m).physicalStart + (s.entry m).size)

/-- The search for `n` bytes ends at an entry that serves them. -/
def Serves (T : Target) (s : State) (type : MemoryType) (n : ℕ) : Prop :=
  ∃ m, firstFit s n = some m ∧ (s.entry m).physicalStart + n ≤ T.uintptrMax ∧
    ¬ CutOff T s type n m ∧ ¬ Starved T s type n m

section Search

variable {T : Target} {s : State} {type : MemoryType} {n : ℕ}

theorem uintptrMax_lt (T : Target) : T.uintptrMax < 2^64 := by
  have h := Nat.pow_le_pow_right (show 0 < 2 by decide) T.ptrBits_le
  have := Nat.two_pow_pos T.ptrBits
  unfold Target.uintptrMax Word.max
  omega

/-- Entries in order of their starts, as the loops meet them. -/
theorem allocSearch_eq {l : List Ptr} (h : Tidy (l.map s.entry)) :
    allocSearch T type n s l =
      match l.find? fun k => (s.entry k).type = .conventionalMemory ∧ n ≤ (s.entry k).size with
      | some m => if (s.entry m).physicalStart + n ≤ T.uintptrMax then allocFrom T type n s m
        else .ok ⟨enomem, none, s⟩
      | none => .ok ⟨enomem, none, s⟩ := by
  have hmax := uintptrMax_lt T
  induction l with
  | nil => rfl
  | cons k rest ih =>
    obtain ⟨hg, hb, hrest⟩ := tidy_cons.mp h
    have hfits := hg.fits
    rw [allocSearch, List.find?_cons]
    by_cases hk : (s.entry k).type = .conventionalMemory ∧ n ≤ (s.entry k).size
    · rw [Word.add_of_lt (by omega), decide_eq_true hk, if_pos hk]
      dsimp only
      by_cases hlimit : (s.entry k).physicalStart + n ≤ T.uintptrMax
      · rw [if_neg (not_lt.mpr hlimit), if_pos hlimit]
      · rw [if_pos (not_le.mp hlimit), if_neg hlimit]
    · rw [decide_eq_false hk, if_neg hk, ih hrest]
      split_ifs with hbreak
      · -- later entries lie above the limit, too
        cases hfind : rest.find? fun k =>
          (s.entry k).type = .conventionalMemory ∧ n ≤ (s.entry k).size with
        | none => rfl
        | some m =>
          have hlt := hb _ (List.mem_map_of_mem (List.mem_of_find?_eq_some hfind))
          have hpos := hg.nonempty
          unfold Before at hlt
          dsimp only
          rw [if_neg]
          intro hm
          rw [Word.add_of_lt (by omega)] at hbreak
          omega
      · rfl

theorem allocSearch_firstFit (hwf : WellFormed T s) :
    allocSearch T type n s s.tree =
      match firstFit s n with
      | some m => if (s.entry m).physicalStart + n ≤ T.uintptrMax then allocFrom T type n s m
        else .ok ⟨enomem, none, s⟩
      | none => .ok ⟨enomem, none, s⟩ :=
  allocSearch_eq hwf.tidy

/-- The first conventional entry comes no later than the first fit. -/
theorem firstConventional_of_fit {m : Ptr} (h : firstFit s n = some m) :
    ∃ q e r, s.tree = q ++ e :: r ∧ firstConventional s = some e ∧
      (∀ k ∈ q, (s.entry k).type ≠ .conventionalMemory) ∧
      (s.entry e).type = .conventionalMemory ∧ (e = m ∨ m ∈ r) := by
  obtain ⟨hm, hmem, -⟩ := List.find?_eq_some_iff_append.mp h
  have hconv := (of_decide_eq_true hm).1
  cases he : firstConventional s with
  | none =>
    have := List.find?_eq_none.mp he m (List.mem_of_find?_eq_some h)
    simp [hconv] at this
  | some e =>
    obtain ⟨hetype, q, r, htree, hfirst⟩ := List.find?_eq_some_iff_append.mp he
    have hq : ∀ k ∈ q, (s.entry k).type ≠ .conventionalMemory := fun k hk => by
      simpa using hfirst k hk
    refine ⟨q, e, r, htree, rfl, hq, of_decide_eq_true hetype, ?_⟩
    have hin := List.mem_of_find?_eq_some h
    rw [htree, List.mem_append, List.mem_cons] at hin
    rcases hin with hin | hin | hin
    · exact absurd hconv (hq m hin)
    · exact .inl hin.symm
    · exact .inr hin

/-- The loop of a refill stops at the first conventional entry, or before it at the limit. -/
theorem refill_eq {q r : List Ptr} {e : Ptr} (h : Tidy ((q ++ e :: r).map s.entry))
    (hq : ∀ k ∈ q, (s.entry k).type ≠ .conventionalMemory)
    (hconv : (s.entry e).type = .conventionalMemory) :
    refill T s (q ++ e :: r) = if T.uintptrMax < (s.entry e).physicalStart + 4096 then s
      else refillFrom T s e := by
  have hpage : ∀ m, Good m → Word.add 64 m.physicalStart 4096 = m.physicalStart + 4096 := by
    intro m hm
    have h₁ := hm.nonempty
    have h₂ := hm.sizeAligned
    have h₃ := hm.fits
    exact Word.add_of_lt (by omega)
  induction q with
  | nil =>
    rw [List.nil_append, refill, hpage _ (tidy_cons.mp h).1, if_pos hconv]
  | cons k q ih =>
    obtain ⟨hg, hb, hrest⟩ := tidy_cons.mp h
    have hlt := hb (s.entry e) (by simp)
    unfold Before at hlt
    rw [List.cons_append, refill, hpage _ hg, if_neg (hq k List.mem_cons_self),
      ih hrest fun m hm => hq m (List.mem_cons_of_mem _ hm)]
    split_ifs <;> first | rfl | omega

theorem refillFrom_allocatable {e : Ptr} (hg : Good (s.entry e)) (hk : s.allocatable = 0) :
    (refillFrom T s e).allocatable = 0 ↔
      TakesLast s e ∧ T.uintptrMax < (s.entry e).physicalStart + (s.entry e).size := by
  have hslots : 2 ≤ T.slotsPerPage :=
    (Nat.le_div_iff_mul_le T.sizeofEntry_pos).mpr T.slots_page
  unfold refillFrom TakesLast
  dsimp only
  rw [hg.physicalEnd]
  by_cases h₁ : (s.entry e).size = 4096
  · have hpool := congrArg (fun p => p.2.1) (pool_mergeAdjacent ((takeNodePage s
      (T.toPtr (s.entry e).physicalStart) T.slotsPerPage).setEntry e
        { s.entry e with type := .loaderData }) e)
    rw [if_pos h₁]
    refine iff_of_false (fun h => ?_) fun h => h.1.1 h₁
    have := hpool.symm.trans h
    change T.slotsPerPage = 0 at this
    omega
  rw [if_neg h₁]
  by_cases h₂ : PrevFits s .loaderData e (rbPrev s e)
  · rw [if_pos h₂]
    refine iff_of_false (fun h => ?_) fun h => h.1.2.1 h₂
    change T.slotsPerPage = 0 at h
    omega
  rw [if_neg h₂]
  by_cases h₃ : NextFits s .loaderData e (rbNext s e)
  · rw [if_pos h₃]
    by_cases h₄ : T.uintptrMax < (s.entry e).physicalStart + (s.entry e).size
    · rw [if_pos h₄]
      exact iff_of_true hk ⟨⟨h₁, h₂, h₃⟩, h₄⟩
    · rw [if_neg h₄]
      refine iff_of_false (fun h => ?_) fun h => h₄ h.2
      change T.slotsPerPage = 0 at h
      omega
  · have hpool := congrArg (fun p => p.2.1) (pool_sliceNew (takeNodePage s
      (T.toPtr (s.entry e).physicalStart) (T.slotsPerPage - 1)) e
        (T.toPtr (s.entry e).physicalStart) .loaderData 4096)
    rw [if_neg h₃]
    refine iff_of_false (fun h => ?_) fun h => h₃ h.1.2.2
    have := hpool.symm.trans h
    change T.slotsPerPage - 1 = 0 at this
    omega

/-- Whether a node is to be had for the pages of the first fit. -/
theorem mmapAllocEntry_starved (hwf : WellFormed T s) {m : Ptr} (hfit : firstFit s n = some m)
    (hlimit : (s.entry m).physicalStart + n ≤ T.uintptrMax)
    (hdry : Dry s type n m) :
    (∃ message, mmapAllocEntry T s = .error message) ↔ Starved T s type n m := by
  obtain ⟨hf, hk⟩ := not_poolReady hdry.2.2.2
  obtain ⟨q, e, r, htree, hfirst, hq, hconv, hlater⟩ := firstConventional_of_fit hfit
  have htidy := hwf.tidy
  rw [State.entries, htree] at htidy
  have hg : Good (s.entry e) := htidy.good _ (by simp)
  have hdryness : (∃ message, mmapAllocEntry T s = .error message) ↔
      (refill T s s.tree).allocatable = 0 := by
    unfold mmapAllocEntry
    rw [if_neg (not_not.mpr hf), if_pos hk]
    dsimp only
    split_ifs with h <;> simp [h]
  have hrefill : (refill T s s.tree).allocatable = 0 ↔
      T.uintptrMax < (s.entry e).physicalStart + 4096 ∨
        TakesLast s e ∧ T.uintptrMax < (s.entry e).physicalStart + (s.entry e).size := by
    rw [htree, refill_eq htidy hq hconv]
    split_ifs with hlow
    · exact iff_of_true hk (.inl hlow)
    · rw [refillFrom_allocatable hg hk, or_iff_right hlow]
  rw [hdryness, hrefill, Starved, and_iff_right hdry, hfirst]
  rcases hlater with rfl | hm
  · exact (and_iff_right rfl).symm
  · -- an earlier entry lies below the limit with all its pages
    have hbefore : Before (s.entry e) (s.entry m) := by
      rw [List.map_append, List.map_cons, tidy_append, tidy_cons] at htidy
      exact htidy.2.1.2.1 _ (List.mem_map_of_mem hm)
    have hne : e ≠ m := by
      rintro rfl
      have := hg.nonempty
      unfold Before at hbefore
      omega
    have h₁ := hg.nonempty
    have h₂ := hg.sizeAligned
    unfold Before at hbefore
    refine iff_of_false ?_ fun h => hne (Option.some.inj h.1)
    rintro (h | ⟨-, h⟩) <;> omega

/-- The pages of the first fit are carved out unless the search breaks off or panics. -/
theorem allocFrom_succeeds_iff (hwf : WellFormed T s) {m : Ptr} (hfit : firstFit s n = some m)
    (hlimit : (s.entry m).physicalStart + n ≤ T.uintptrMax) :
    (∃ a s', allocFrom T type n s m = .ok ⟨0, a, s'⟩) ↔
      ¬ CutOff T s type n m ∧ ¬ Starved T s type n m := by
  have hg : Good (s.entry m) :=
    hwf.tidy.good _ (List.mem_map_of_mem (List.mem_of_find?_eq_some hfit))
  unfold allocFrom CutOff
  dsimp only
  rw [hg.physicalEnd]
  by_cases h₁ : (s.entry m).size = n
  · rw [if_pos h₁]
    exact iff_of_true ⟨_, _, rfl⟩ ⟨fun h => h.1 h₁, fun h => h.1.1 h₁⟩
  rw [if_neg h₁]
  by_cases h₂ : PrevFits s type m (rbPrev s m)
  · rw [if_pos h₂]
    exact iff_of_true ⟨_, _, rfl⟩ ⟨fun h => h.2.1 h₂, fun h => h.1.2.1 h₂⟩
  rw [if_neg h₂]
  by_cases h₃ : NextFits s type m (rbNext s m)
  · rw [if_pos h₃]
    have hfed : ¬ Starved T s type n m := fun h => h.1.2.2.1 h₃
    by_cases h₄ : T.uintptrMax < (s.entry m).physicalStart + (s.entry m).size
    · rw [if_pos h₄]
      refine iff_of_false ?_ fun h => h.1 ⟨h₁, h₂, h₃, h₄⟩
      rintro ⟨a, s', h⟩
      cases h
    · rw [if_neg h₄]
      exact iff_of_true ⟨_, _, rfl⟩ ⟨fun h => h₄ h.2.2.2, hfed⟩
  rw [if_neg h₃, and_iff_right fun h => h₃ h.2.2.1]
  by_cases hpool : PoolReady s
  · obtain ⟨free, ho⟩ := hwf.owned
    obtain ⟨new, s₁, -, halloc, -⟩ := mmapAllocEntry_pool ho hpool
    rw [halloc]
    exact iff_of_true ⟨_, _, rfl⟩ fun h => h.1.2.2.2 hpool
  · rw [← mmapAllocEntry_starved hwf hfit hlimit ⟨h₁, h₂, h₃, hpool⟩]
    cases mmapAllocEntry T s with
    | error message => simp
    | ok res => simp

/-- The call returns 0 exactly when the first fit serves. -/
theorem allocSearch_succeeds_iff (hwf : WellFormed T s) :
    (∃ a s', allocSearch T type n s s.tree = .ok ⟨0, a, s'⟩) ↔ Serves T s type n := by
  rw [allocSearch_firstFit hwf, Serves]
  cases hfit : firstFit s n with
  | none => simp [enomem]
  | some m =>
    simp only [Option.some.injEq, exists_eq_left']
    by_cases hlimit : (s.entry m).physicalStart + n ≤ T.uintptrMax
    · rw [if_pos hlimit, allocFrom_succeeds_iff hwf hfit hlimit, and_iff_right hlimit]
    · rw [if_neg hlimit]
      simp [enomem, hlimit]

end Search

/-- From `s` to `s'` the `N` bytes from `r` on turned from conventional memory into the
type, and besides only a page taken for nodes changed. -/
structure Turned (s s' : State) (type : MemoryType) (r N : ℕ) : Prop where
  was : ∀ x, r ≤ x → x < r + N → typeAt s.entries x = some .conventionalMemory
  now : ∀ x, r ≤ x → x < r + N → typeAt s'.entries x = some type
  rest : ∀ x, ¬ (r ≤ x ∧ x < r + N) →
    (∀ p, s'.nodePages = p :: s.nodePages → ¬ (p ≤ x ∧ x < p + 4096)) →
    typeAt s'.entries x = typeAt s.entries x

theorem Allocated.turned {T : Target} {s s' : State} {type : MemoryType} {r n : ℕ}
    (h : Allocated T s s' type r n) : Turned s s' type r n where
  was := h.was
  now x h₁ h₂ := by rw [h.now, if_pos ⟨h₁, h₂⟩]
  rest x hx _ := by rw [h.now, if_neg hx]

section Refill

variable {T : Target} {s s₁ : State} {type : MemoryType} {n : ℕ} {q r : List Ptr} {m : Ptr}

theorem sliceNew_typeAt {new : Ptr} (htidy : Tidy s.entries) (htree : s.tree = q ++ m :: r)
    (hnodup : s.tree.Nodup) (hnew : new ∉ s.tree) (h0 : new ≠ 0) (hpos : 0 < n)
    (hsize : n ≤ (s.entry m).size) (hconv : (s.entry m).type = .conventionalMemory) (x : ℕ) :
    typeAt (sliceNew s m new type n).entries x =
      if (s.entry m).physicalStart ≤ x ∧ x < (s.entry m).physicalStart + n then some type
      else typeAt s.entries x := by
  obtain ⟨-, hentries⟩ := @sliceNew_link s q r m new type n htidy htree hnodup hnew h0 hpos hsize
  have hold : s.entries = q.map s.entry ++ ([s.entry m] ++ r.map s.entry) := by
    rw [State.entries, htree, List.map_append, List.map_cons]
    rfl
  have htidy' := htidy
  rw [hold, tidy_append, List.singleton_append, tidy_cons] at htidy'
  obtain ⟨-, ⟨hg, -, -⟩, hb⟩ := htidy'
  have hfits := hg.fits
  have hstart : (dropFront (s.entry m) n).physicalStart = (s.entry m).physicalStart + n :=
    Word.add_of_lt (by omega)
  have hrest : (dropFront (s.entry m) n).size = (s.entry m).size - n :=
    Word.sub_of_le (by omega) hsize
  rw [hentries, hold]
  refine typeAt_replace (fun y hy => ?_) (fun y => ?_) x
  · exact typeAt_front (fun a ha => hb a ha _ List.mem_cons_self) hy
  · simp only [typeAt_cons, typeAt_nil, hstart, hrest]
    change (if (s.entry m).physicalStart ≤ y ∧ y < (s.entry m).physicalStart + n then some type
      else if _ then some (s.entry m).type else none) = _
    rw [hconv]
    split_ifs <;> first | rfl | omega

/-- The allocation goes on after a page was taken for nodes. -/
theorem Turned.of_refill {page : ℕ} (hpages : s₁.nodePages = page :: s.nodePages)
    (hpage : ∀ x, page ≤ x → x < page + 4096 → typeAt s₁.entries x ≠ some .conventionalMemory)
    (hkeep : ∀ x, ¬ (page ≤ x ∧ x < page + 4096) → typeAt s₁.entries x = typeAt s.entries x)
    (htidy : Tidy s₁.entries) (hm : m ∈ s₁.tree) (hnodup : s₁.tree.Nodup)
    (hnew : s₁.allocNext ∉ s₁.tree) (h0 : s₁.allocNext ≠ 0) (hpos : 0 < n)
    (hsize : n ≤ (s₁.entry m).size) (hconv : (s₁.entry m).type = .conventionalMemory) :
    Turned s (sliceNew (s₁.issue T) m s₁.allocNext type n).bumpKey type
      (s₁.entry m).physicalStart n := by
  obtain ⟨q, r, htree⟩ := List.append_of_mem hm
  have hnow := @sliceNew_typeAt (s₁.issue T) type n q r m s₁.allocNext htidy htree hnodup hnew h0
    hpos hsize hconv
  change ∀ x, typeAt (sliceNew (s₁.issue T) m s₁.allocNext type n).entries x =
    if (s₁.entry m).physicalStart ≤ x ∧ x < (s₁.entry m).physicalStart + n then some type
    else typeAt s₁.entries x at hnow
  refine ⟨?_, ?_, ?_⟩
  · intro x h₁ h₂
    have hwas : typeAt s₁.entries x = some .conventionalMemory := by
      rw [← hconv]
      exact typeAt_of_mem htidy (List.mem_map_of_mem hm) h₁ (by omega)
    rw [← hkeep x fun hx => hpage x hx.1 hx.2 hwas]
    exact hwas
  · intro x h₁ h₂
    exact (hnow x).trans (if_pos ⟨h₁, h₂⟩)
  · intro x hx hout
    have hp : (sliceNew (s₁.issue T) m s₁.allocNext type n).bumpKey.nodePages =
        page :: s.nodePages :=
      (congrArg (fun p => p.2.2) (pool_sliceNew (s₁.issue T) m s₁.allocNext type n)).trans hpages
    exact ((hnow x).trans (if_neg hx)).trans (hkeep x (hout page hp))

theorem sliceNew_entry {new : Ptr} : (sliceNew s m new type n).entry =
    Function.update (Function.update s.entry new (sliced s m new type n)) m
      (dropFront (Function.update s.entry new (sliced s m new type n) m) n) := by
  have hentry : ∀ t : State, (rbInsert t new).2.entry = t.entry := by
    intro t
    unfold rbInsert
    dsimp only
    split <;> rfl
  exact hentry _

theorem sliceNew_entry_self {new : Ptr} (hne : m ≠ new) :
    (sliceNew s m new type n).entry m = dropFront (s.entry m) n := by
  rw [sliceNew_entry, Function.update_self, Function.update_of_ne hne]

theorem sliceNew_entry_of_ne {new k : Ptr} (hm : k ≠ m) (hne : k ≠ new) :
    (sliceNew s m new type n).entry k = s.entry k := by
  rw [sliceNew_entry, Function.update_of_ne hm, Function.update_of_ne hne]

/-- A node at address 0 is not linked. -/
theorem sliceNew_tree_null : (sliceNew s m 0 type n).tree = s.tree := by
  have htree : ∀ t : State, (rbInsert t 0).2.tree = t.tree := by
    intro t
    unfold rbInsert
    dsimp only
    split
    · rfl
    · rfl
  exact htree _

theorem use_takeNodePage (s : State) (page slots : ℕ) (m : Ptr) :
    (takeNodePage s page slots).use m = takeNodePage (s.use m) page slots := by
  unfold State.use
  change (if m ∈ s.tree then _ else _) = _
  split_ifs <;> rfl

theorem rbRemove_takeNodePage (s : State) (page slots : ℕ) (m : Ptr) :
    rbRemove (takeNodePage s page slots) m = takeNodePage (rbRemove s m) page slots := by
  unfold rbRemove
  rw [use_takeNodePage]
  change (if m ∈ s.tree then _ else _) = _
  split_ifs <;> rfl

theorem absorb_takeNodePage (s : State) (page slots : ℕ) (m k : Ptr) :
    absorb (takeNodePage s page slots) m k = takeNodePage (absorb s m k) page slots := by
  unfold absorb
  have h : (takeNodePage s page slots).setEntry m (grown (takeNodePage s page slots) m k) =
    takeNodePage (s.setEntry m (grown s m k)) page slots := rfl
  rw [h, rbRemove_takeNodePage]
  rfl

theorem mergeAdjacent_takeNodePage (s : State) (page slots : ℕ) (m : Ptr) :
    mergeAdjacent (takeNodePage s page slots) m = takeNodePage (mergeAdjacent s m) page slots := by
  unfold mergeAdjacent
  rw [use_takeNodePage, use_takeNodePage]
  generalize (s.use m).use m = t
  dsimp only
  have hprev : rbPrev (takeNodePage t page slots) m = rbPrev t m := rfl
  have hnext : rbNext (takeNodePage t page slots) m = rbNext t m := rfl
  have hdo : ∀ (u : State) (k j : Ptr),
      (if j ≠ 0 ∧ Mergeable (takeNodePage u page slots) k j
        then absorb (takeNodePage u page slots) k j else takeNodePage u page slots) =
      takeNodePage (if j ≠ 0 ∧ Mergeable u k j then absorb u k j else u) page slots := by
    intro u k j
    rw [absorb_takeNodePage]
    change (if j ≠ 0 ∧ Mergeable u k j then _ else _) = _
    split_ifs <;> rfl
  rw [hprev, hnext]
  by_cases h₁ : rbPrev t m ≠ 0 ∧ Mergeable t (rbPrev t m) m
  · have h₂ : rbPrev t m ≠ 0 ∧ Mergeable (takeNodePage t page slots) (rbPrev t m) m := h₁
    rw [if_pos h₁, if_pos h₂, absorb_takeNodePage]
    exact hdo _ _ _
  · have h₂ : ¬ (rbPrev t m ≠ 0 ∧ Mergeable (takeNodePage t page slots) (rbPrev t m) m) := h₁
    rw [if_neg h₁, if_neg h₂]
    exact hdo _ _ _

end Refill

namespace Refilling

variable {T : Target} {s s' : State} {type : MemoryType} {r n : ℕ} {mme e : Ptr}
  {q q' l l' : List Ptr}

/-- No node lies in the page that is taken. -/
theorem not_mem_page (h : Refilling T s s' type r n mme e q q' l l') (hheld : NodesHeld T s)
    {k : Ptr} (h₁ : nodePage s e ≤ k) (h₂ : k < nodePage s e + 4096) : k ∉ s.tree := by
  intro hk
  obtain ⟨hlo, hhi⟩ := h.refilling.nodePage_bounds
  exact hheld k hk 0 T.sizeofEntry_pos (h.refilling.was (hlo.trans h₁) (lt_of_lt_of_le h₂ hhi))

/-- What the refill leaves of the entry that the allocation carves from, too. -/
theorem entry_left (h : Refilling T s s' type r n mme e q q' l l') (hsame : e = mme)
    (hne : e ≠ nodePage s e) :
    mme ∈ (refillFrom T s e).tree ∧
      ((refillFrom T s e).entry mme).type = .conventionalMemory ∧
      n ≤ ((refillFrom T s e).entry mme).size := by
  subst hsame
  obtain ⟨free, ho⟩ := h.refilling.wellFormed.owned
  have hg := h.carving.tidy.2.1
  have hfits := hg.fits
  have hsize := h.carving.size
  have hwhole := h.notWhole
  have hal := h.carving.aligned
  have hsal := hg.sizeAligned
  have hpos := h.carving.pos
  have hmem : e ∈ s.tree := by simp [h.carving.tree]
  have hconv := h.carving.conventional
  have hless : Word.sub 64 (s.entry e).size 4096 = (s.entry e).size - 4096 :=
    Word.sub_of_le (by omega) (by omega)
  have hdrop : (dropFront (s.entry e) 4096).size = (s.entry e).size - 4096 := hless
  have htype : ∀ k, (dropFront (s.entry e) k).type = (s.entry e).type := fun _ => rfl
  rcases h.refilling.refillFrom_cases rfl with heq | ⟨h₁, -⟩ | ⟨-, -, h₁, heq⟩ | ⟨h₁, -, -⟩ |
    ⟨-, -, -, heq⟩
  · exact absurd heq h.taken
  · omega
  · obtain ⟨l₁, p, rfl, hp, -⟩ := h.refilling.wellFormed.prevFits h.refilling.tree h₁
    have hep : e ≠ p := by
      rintro rfl
      exact (ho.not_mem h.refilling.tree).1 (by simp)
    have hentry : (refillFrom T s e).entry e = dropFront (s.entry e) 4096 := by
      rw [heq, hp]
      unfold slicePrev
      dsimp only [State.setEntry, State.bumpKey]
      rw [Function.update_self, Function.update_of_ne hep]
      rfl
    rw [hentry, hdrop, htype, heq]
    exact ⟨hmem, hconv, by omega⟩
  · obtain ⟨htree, hentry⟩ := h.refilling.refillFrom_last h₁ h.taken
    rw [hentry, htree]
    exact ⟨hmem, hconv, le_of_le_of_eq (by omega) hless.symm⟩
  · have hentry : (refillFrom T s e).entry e = dropFront (s.entry e) 4096 := by
      rw [heq]
      exact sliceNew_entry_self hne
    rw [hentry, hdrop, htype, heq]
    refine ⟨?_, hconv, by omega⟩
    exact @sliceNew_mem _ _ _ _ _ _ hmem

/-- With a page that is not at address 0. -/
theorem turned (h : Refilling T s s' type r n mme e q q' l l') (hf : s.lastFreed = 0)
    (hheld : NodesHeld T s) (h0 : nodePage s e ≠ 0) : ∃ r', Turned s s' type r' n := by
  obtain ⟨free₀, ho₀⟩ := h.carving.wellFormed.owned
  obtain ⟨hc, hk, -⟩ := (h.refilling.refilled hf hheld h0).resolve_left h.taken
  obtain ⟨free, ho⟩ := hc.wellFormed.owned
  obtain ⟨hnew, hfresh, -⟩ := (ho.issue hk).fresh
  have hnow : ∀ x, typeAt (refillFrom T s e).entries x =
      if nodePage s e ≤ x ∧ x < nodePage s e + 4096 then some .loaderData
      else typeAt s.entries x := hc.now
  have hleft : mme ∈ (refillFrom T s e).tree ∧
      ((refillFrom T s e).entry mme).type = .conventionalMemory ∧
      n ≤ ((refillFrom T s e).entry mme).size := by
    by_cases hsame : e = mme
    · refine h.entry_left hsame fun heq => ?_
      exact h.not_mem_page hheld heq.ge (heq.le.trans_lt (Nat.lt_add_of_pos_right (by decide)))
        (by simp [h.refilling.tree])
    · obtain ⟨hmem, hentry⟩ := hc.kept mme (by change mme ∈ s.tree; simp [h.carving.tree])
        (Ne.symm hsame) (by change (s.entry mme).type ≠ _; rw [h.carving.conventional]; decide)
      have hentry' : (refillFrom T s e).entry mme = s.entry mme := hentry
      rw [hentry']
      exact ⟨hmem, h.carving.conventional, h.carving.size⟩
  rw [h.state]
  refine ⟨_, Turned.of_refill (h.refilling.refillFrom_pages.resolve_left h.taken) ?_ ?_
    hc.wellFormed.tidy hleft.1 ho.tree_nodup hfresh hnew h.carving.pos hleft.2.2 hleft.2.1⟩
  · intro x h₁ h₂
    rw [hnow, if_pos ⟨h₁, h₂⟩]
    decide
  · intro x hx
    rw [hnow, if_neg hx]

/-- With the first page of an entry at address 0. Its node is lost, and the next slot is
handed out. -/
theorem turned_null (h : Refilling T s s' type r n mme e q q' l l') (hheld : NodesHeld T s)
    (hzero : nodePage s e = 0) (hsize : (s.entry e).size ≠ 4096) :
    ∃ r', Turned s s' type r' n := by
  obtain ⟨free, ho⟩ := h.refilling.wellFormed.owned
  obtain ⟨-, hg, hr, hb₁, hb₂, -⟩ := h.refilling.tidy
  have hle := h.refilling.size
  have hal := hg.sizeAligned
  have hfits := hg.fits
  have hstart : (s.entry e).physicalStart = 0 := by
    have := h.refilling.nodePage_bounds.1
    omega
  have he0 : e ≠ 0 := ho.ne_null (by simp [h.refilling.tree])
  rcases h.refilling.refillFrom_cases rfl with heq | ⟨h₁, -⟩ | ⟨-, -, h₁, -⟩ | ⟨h₁, -, -⟩ |
    ⟨-, -, -, heq⟩
  · exact absurd heq h.taken
  · exact absurd h₁ hsize
  · obtain ⟨l₁, p, rfl, -, -, hend⟩ := h.refilling.wellFormed.prevFits h.refilling.tree h₁
    have hgp : Good (s.entry p) := h.refilling.tidy.1.good _ (by simp)
    have := hgp.nonempty
    omega
  · have hp : nodePage s e = (s.entry e).physicalStart + (s.entry e).size - 4096 := if_pos h₁
    omega
  rw [hzero] at heq
  generalize hs₁ : refillFrom T s e = s₁ at heq
  have htree : s₁.tree = s.tree := by
    rw [heq]
    exact sliceNew_tree_null
  have hself : s₁.entry e = dropFront (s.entry e) 4096 := by
    rw [heq]
    exact sliceNew_entry_self he0
  have hother : ∀ k ∈ s.tree, k ≠ e → s₁.entry k = s.entry k := by
    intro k hk hne
    rw [heq]
    exact sliceNew_entry_of_ne hne (ho.ne_null hk)
  have hnext : s₁.allocNext = T.sizeofEntry := by
    have hpool := congrArg (fun p => p.1) (pool_sliceNew ((takeNodePage s 0 T.slotsPerPage).issue T)
      e 0 .loaderData 4096)
    rw [heq]
    exact hpool.trans (Nat.zero_add _)
  -- nothing lies in front of address 0
  have hl : l = [] := by
    refine List.eq_nil_iff_forall_not_mem.mpr fun k hk => ?_
    have h₁ := hb₁ _ (List.mem_map_of_mem hk)
    have h₂ := (h.refilling.tidy.1.good _ (List.mem_map_of_mem hk)).nonempty
    unfold Before at h₁
    omega
  subst hl
  have hrest : l'.map s₁.entry = l'.map s.entry := by
    refine List.map_congr_left fun k hk => hother k (by simp [h.refilling.tree, hk]) ?_
    rintro rfl
    exact (ho.not_mem h.refilling.tree).2 hk
  have hentries : s₁.entries = dropFront (s.entry e) 4096 :: l'.map s.entry := by
    rw [State.entries, htree, h.refilling.tree, List.nil_append, List.map_cons, hself, hrest]
  have hold : s.entries = s.entry e :: l'.map s.entry := h.refilling.entries
  have hd₁ : (dropFront (s.entry e) 4096).physicalStart = 4096 := by
    refine (Word.add_of_lt (by omega)).trans ?_
    omega
  have hd₂ : (dropFront (s.entry e) 4096).size = (s.entry e).size - 4096 :=
    Word.sub_of_le (by omega) (by omega)
  have hd₃ : ∀ k, (dropFront (s.entry e) k).type = (s.entry e).type := fun _ => rfl
  have htidy : Tidy s₁.entries := by
    rw [hentries]
    refine tidy_cons.mpr ⟨⟨by omega, by omega, by omega, by omega⟩, fun b hb => ?_, hr⟩
    have := hb₂ b hb
    unfold Before at *
    omega
  have hleft : mme ∈ s₁.tree ∧ (s₁.entry mme).type = .conventionalMemory ∧
      n ≤ (s₁.entry mme).size := by
    by_cases hsame : e = mme
    · rw [← hs₁]
      exact h.entry_left hsame (by rw [hzero]; exact he0)
    · have hmem : mme ∈ s.tree := by simp [h.carving.tree]
      rw [htree, hother mme hmem (Ne.symm hsame)]
      exact ⟨hmem, h.carving.conventional, h.carving.size⟩
  have hslot : T.sizeofEntry < 4096 := by
    have := T.slots_page
    have := T.sizeofEntry_pos
    omega
  have hpages : s₁.nodePages = 0 :: s.nodePages := by
    rw [← hs₁, ← hzero]
    exact h.refilling.refillFrom_pages.resolve_left h.taken
  rw [h.state, hs₁]
  refine ⟨_, Turned.of_refill hpages ?_ ?_ htidy hleft.1 (htree ▸ ho.tree_nodup) ?_ ?_
    h.carving.pos hleft.2.2 hleft.2.1⟩
  · intro x _ hx
    have hnone : typeAt s₁.entries x = none := by
      rw [hentries, typeAt_cons, if_neg (by omega)]
      exact typeAt_back hb₂ (by omega)
    rw [hnone]
    simp
  · intro x hx
    rw [hentries, hold, typeAt_cons, typeAt_cons, hd₁, hd₂, hd₃, hstart]
    refine if_congr ?_ rfl rfl
    omega
  · rw [hnext, htree]
    exact h.not_mem_page hheld (hzero.le.trans (Nat.zero_le _)) (by rw [hzero]; omega)
  · rw [hnext]
    exact T.sizeofEntry_pos.ne'

/-- With a whole entry at address 0, the new node is at address 0 and the pages are lost. -/
theorem not_turned (h : Refilling T s s' type r n mme e q q' l l')
    (hstart : (s.entry e).physicalStart = 0) (hsize : (s.entry e).size = 4096) (r' : ℕ) :
    ¬ Turned s s' type r' n := by
  intro ht
  obtain ⟨free₀, ho₀⟩ := h.carving.wellFormed.owned
  have hpos := h.carving.pos
  have hle := h.carving.size
  have hg := h.carving.tidy.2.1
  have hfits := hg.fits
  have hsame : e ≠ mme := by
    rintro rfl
    have := h.notWhole
    have := h.carving.aligned
    omega
  have hzero : nodePage s e = 0 := by
    rw [nodePage, if_neg fun hl => hl.1 hsize, hstart]
  -- the entry at address 0 is retyped and merged as in a map whose pool is left alone
  obtain ⟨hc, -⟩ := h.refilling.whole hsize
  obtain ⟨hmem, hentry⟩ := hc.kept mme (by simp [h.carving.tree]) (Ne.symm hsame)
    (by rw [h.carving.conventional]; decide)
  obtain ⟨free, ho⟩ := hc.wellFormed.owned
  generalize hs₂ : (mergeAdjacent (s.setEntry e { s.entry e with type := .loaderData }) e).bumpKey =
    s₂ at hc hmem hentry ho
  have hrefill : refillFrom T s e = takeNodePage s₂ 0 T.slotsPerPage := by
    rcases h.refilling.refillFrom_cases rfl with heq | ⟨-, -, heq⟩ | ⟨h₁, -⟩ | ⟨h₁, -⟩ | ⟨h₁, -⟩
    · exact absurd heq h.taken
    · rw [heq, hzero, ← hs₂]
      exact congrArg State.bumpKey (mergeAdjacent_takeNodePage
        (s.setEntry e { s.entry e with type := .loaderData }) 0 T.slotsPerPage e)
    · exact absurd hsize h₁
    · exact absurd hsize h₁.1
    · exact absurd hsize h₁
  have hstate := h.state
  rw [hrefill] at hstate
  have hs' : s' = (sliceNew ((takeNodePage s₂ 0 T.slotsPerPage).issue T) mme 0 type n).bumpKey :=
    hstate
  have htree : s'.tree = s₂.tree := by
    rw [hs']
    exact sliceNew_tree_null
  have hself : s'.entry mme = dropFront (s.entry mme) n := by
    rw [hs', ← hentry]
    exact sliceNew_entry_self (ho.ne_null hmem)
  have hother : ∀ k ∈ s₂.tree, k ≠ mme → s'.entry k = s₂.entry k := by
    intro k hk hne
    rw [hs']
    exact sliceNew_entry_of_ne hne (ho.ne_null hk)
  have hlost : typeAt s'.entries (s.entry mme).physicalStart = none := by
    obtain ⟨q₁, r₁, ht₂⟩ := List.append_of_mem hmem
    have htidy := hc.wellFormed.tidy
    rw [State.entries, ht₂, List.map_append, List.map_cons, tidy_append, tidy_cons, hentry] at htidy
    obtain ⟨-, ⟨-, hb₂, -⟩, hb₁⟩ := htidy
    refine typeAt_none ?_
    rw [State.entries, htree]
    intro a ha
    obtain ⟨k, hk, rfl⟩ := List.mem_map.mp ha
    by_cases hkm : k = mme
    · have hmoved : (dropFront (s.entry mme) n).physicalStart = (s.entry mme).physicalStart + n :=
        Word.add_of_lt (by omega)
      rw [hkm, hself, hmoved]
      omega
    · rw [hother k hk hkm]
      rw [ht₂, List.mem_append, List.mem_cons] at hk
      rcases hk with hk | hk | hk
      · have := hb₁ _ (List.mem_map_of_mem hk) _ List.mem_cons_self
        unfold Before at this
        omega
      · exact absurd hk hkm
      · have := hb₂ _ (List.mem_map_of_mem hk)
        unfold Before at this
        omega
  have hwas := h.carving.was le_rfl (by omega : (s.entry mme).physicalStart < _)
  by_cases hin : r' ≤ (s.entry mme).physicalStart ∧ (s.entry mme).physicalStart < r' + n
  · have hnow := ht.now _ hin.1 hin.2
    rw [hlost] at hnow
    cases hnow
  · have hrest := ht.rest _ hin ?_
    · rw [hlost, hwas] at hrest
      cases hrest
    · intro p hp
      obtain rfl : nodePage s e = p := (List.cons.inj (h.pages.symm.trans hp)).1
      -- the page at address 0 lies before the entry
      have he : e ∈ q := (first_or_later h.refilling.tree h.first h.carving.tree
        h.carving.conventional).resolve_left hsame
      have hbefore := h.carving.tidy.2.2.2.1 _ (List.mem_map_of_mem he)
      unfold Before at hbefore
      omega

end Refilling

/-- The page for a new node is a whole entry at address 0. -/
def NullNode (s : State) (type : MemoryType) (n : ℕ) (m : Ptr) : Prop :=
  Dry s type n m ∧ ∃ e, firstConventional s = some e ∧ (s.entry e).physicalStart = 0 ∧
    (s.entry e).size = 4096

/-- The reply to a request of `N` bytes. -/
structure AllocatesExactly (T : Target) (s : State) (type : MemoryType) (N : ℕ)
    (reply : Except String AllocReply) : Prop where
  succeeds : (∃ a s', reply = .ok ⟨0, a, s'⟩) ↔ Room T s N
  turns : ∀ a s', reply = .ok ⟨0, a, s'⟩ → ∃ r, Turned s s' type r N
  fails : ∀ rv a s', reply = .ok ⟨rv, a, s'⟩ → rv ≠ 0 → rv = enomem ∧
    s'.entries = s.entries ∧ s'.mmapKey = s.mmapKey ∧ s'.lastFreed = s.lastFreed ∧
    s'.allocNext = s.allocNext ∧ s'.allocatable = s.allocatable

/-- No entry serves the bytes that are left of a number beyond `size_t`; of other numbers
the first fit below the limit serves them with a node. -/
structure AllocCondition (T : Target) (s : State) (type : MemoryType) (count : ℕ) : Prop where
  wrapped : 2^T.ptrBits ≤ 4096 * count → ¬ Serves T s type (Word.mul T.ptrBits count 4096)
  fit : 4096 * count < 2^T.ptrBits → ∀ m, firstFit s (4096 * count) = some m →
    (s.entry m).physicalStart + 4096 * count ≤ T.uintptrMax →
    ¬ CutOff T s type (4096 * count) m ∧ ¬ Starved T s type (4096 * count) m ∧
      ¬ NullNode s type (4096 * count) m

section Exact

variable {T : Target} {s s' : State} {type : MemoryType} {n count : ℕ}

/-- A failed search changes nothing. -/
theorem allocSearch_fails {rv : ℕ} {a : Option Ptr} {l : List Ptr}
    (hcall : allocSearch T type n s l = .ok ⟨rv, a, s'⟩) (hrv : rv ≠ 0) :
    rv = enomem ∧ s' = s := by
  rcases allocSearch_cases T type n s l with hnone | ⟨l₁, m, l₂, -, -, -, -, -, heq⟩
  · rw [hnone] at hcall
    cases hcall
    exact ⟨rfl, rfl⟩
  · rw [heq] at hcall
    unfold allocFrom at hcall
    dsimp only at hcall
    split_ifs at hcall
    · cases hcall
      exact absurd rfl hrv
    · cases hcall
      exact absurd rfl hrv
    · cases hcall
      exact ⟨rfl, rfl⟩
    · cases hcall
      exact absurd rfl hrv
    · split at hcall
      · cases hcall
      · cases hcall
        exact absurd rfl hrv

/-- Where an entry fits, the first fit lies below the limit. -/
theorem room_iff (hwf : WellFormed T s) {N : ℕ} :
    Room T s N ↔ ∃ m, firstFit s N = some m ∧ (s.entry m).physicalStart + N ≤ T.uintptrMax := by
  constructor
  · rintro ⟨e, he, hconv, hsize, hlimit⟩
    obtain ⟨k, hk, rfl⟩ := List.mem_map.mp he
    cases hfit : firstFit s N with
    | none =>
      have := List.find?_eq_none.mp hfit k hk
      simp [hconv, hsize] at this
    | some m =>
      refine ⟨m, rfl, ?_⟩
      obtain ⟨-, q, r, htree, hfirst⟩ := List.find?_eq_some_iff_append.mp hfit
      have htidy := hwf.tidy
      rw [State.entries, htree, List.map_append, List.map_cons, tidy_append, tidy_cons] at htidy
      rw [htree, List.mem_append, List.mem_cons] at hk
      rcases hk with hk | rfl | hk
      · have := hfirst k hk
        simp [hconv, hsize] at this
      · exact hlimit
      · have := htidy.2.1.2.1 _ (List.mem_map_of_mem hk)
        unfold Before at this
        omega
  · rintro ⟨m, hfit, hlimit⟩
    obtain ⟨hm, -⟩ := List.find?_eq_some_iff_append.mp hfit
    replace hm := of_decide_eq_true hm
    exact ⟨s.entry m, List.mem_map_of_mem (List.mem_of_find?_eq_some hfit), hm.1, hm.2, hlimit⟩

theorem allocSearch_of_fit (hwf : WellFormed T s) {a : Option Ptr} {m : Ptr}
    (hcall : allocSearch T type n s s.tree = .ok ⟨0, a, s'⟩) (hfit : firstFit s n = some m) :
    allocFrom T type n s m = .ok ⟨0, a, s'⟩ := by
  rw [allocSearch_firstFit hwf, hfit] at hcall
  dsimp only at hcall
  split_ifs at hcall
  · exact hcall
  · cases hcall

theorem allocFrom_result {a : Option Ptr} {m : Ptr}
    (hcall : allocFrom T type n s m = .ok ⟨0, a, s'⟩) : ∃ r, a = some r := by
  unfold allocFrom at hcall
  dsimp only at hcall
  split_ifs at hcall
  · cases hcall
    exact ⟨_, rfl⟩
  · cases hcall
    exact ⟨_, rfl⟩
  · cases hcall
  · cases hcall
    exact ⟨_, rfl⟩
  · split at hcall
    · cases hcall
    · cases hcall
      exact ⟨_, rfl⟩

/-- With a dry pool a page is taken; otherwise none is. -/
theorem allocFrom_pages (hwf : WellFormed T s) {a : Option Ptr} {m : Ptr}
    (hcall : allocFrom T type n s m = .ok ⟨0, a, s'⟩) (hpool : ¬ PoolReady s) :
    s'.nodePages ≠ s.nodePages ↔ Dry s type n m := by
  obtain ⟨hf, hk⟩ := not_poolReady hpool
  unfold allocFrom at hcall
  dsimp only at hcall
  split_ifs at hcall with h₁ h₂ h₃ h₄
  · cases hcall
    have hkeep := congrArg (fun p => p.2.2)
      (pool_mergeAdjacent (s.setEntry m { s.entry m with type := type }) m)
    exact iff_of_false (not_not.mpr hkeep) fun h => h.1 h₁
  · cases hcall
    exact iff_of_false (not_not.mpr rfl) fun h => h.2.1 h₂
  · cases hcall
  · cases hcall
    exact iff_of_false (not_not.mpr rfl) fun h => h.2.2.1 h₃
  · refine iff_of_true ?_ ⟨h₁, h₂, h₃, hpool⟩
    cases halloc : mmapAllocEntry T s with
    | error message =>
      rw [halloc] at hcall
      cases hcall
    | ok res =>
      obtain ⟨new, s₂⟩ := res
      obtain ⟨l, e, l', hp, -, htaken, -, -, rfl⟩ := mmapAllocEntry_dry hwf hf hk halloc
      rw [halloc] at hcall
      cases hcall
      have hpages := congrArg (fun p => p.2.2)
        (pool_sliceNew ((refillFrom T s e).issue T) m new type n)
      have htook := hp.refillFrom_pages.resolve_left htaken
      intro hsame
      have hlength := congrArg List.length ((hpages.trans htook).symm.trans hsame)
      simp at hlength

/-- A success turns the bytes, unless the new node is at address 0. -/
theorem allocSearch_turns_iff (hwf : WellFormed T s) (hheld : NodesHeld T s) (hpos : 0 < n)
    (hal : n % 4096 = 0) {a : Option Ptr} {m : Ptr}
    (hcall : allocSearch T type n s s.tree = .ok ⟨0, a, s'⟩) (hfit : firstFit s n = some m) :
    (∃ r, Turned s s' type r n) ↔ ¬ NullNode s type n m := by
  have hfrom := allocSearch_of_fit hwf hcall hfit
  by_cases hdry : Dry s type n m
  · obtain ⟨hf, hk⟩ := not_poolReady hdry.2.2.2
    obtain ⟨r, rfl⟩ := allocFrom_result hfrom
    obtain ⟨mme, e, q, q', l, l', h⟩ := allocSearch_refilling hwf hf hk hpos hal hcall
      ((allocFrom_pages hwf hfrom hdry.2.2.2).mpr hdry)
    have hfirst : firstConventional s = some e := h.find
    by_cases hnull : (s.entry e).physicalStart = 0 ∧ (s.entry e).size = 4096
    · refine iff_of_false ?_ (not_not.mpr ⟨hdry, e, hfirst, hnull⟩)
      rintro ⟨r', ht⟩
      exact h.not_turned hnull.1 hnull.2 r' ht
    · refine iff_of_true ?_ ?_
      · by_cases hzero : nodePage s e = 0
        · refine h.turned_null hheld hzero fun hsize => hnull ⟨?_, hsize⟩
          have := h.refilling.nodePage_bounds.1
          omega
        · exact h.turned hf hheld hzero
      · rintro ⟨-, e', he', hstart, hsize⟩
        obtain rfl := Option.some.inj (hfirst.symm.trans he')
        exact hnull ⟨hstart, hsize⟩
  · refine iff_of_true ?_ fun h => hdry h.1
    rcases @allocSearch_spec T s type n hwf hpos hal with
      hnone | ⟨r, t, hr, ha, -⟩ | ⟨hpool, herr | ⟨r, t, hr, hrefills⟩⟩
    · rw [hnone] at hcall
      cases hcall
    · rw [hr] at hcall
      cases hcall
      exact ⟨r, ha.turned⟩
    · rw [herr] at hcall
      cases hcall
    · rw [hr] at hcall
      cases hcall
      have hsame := not_not.mp (mt (allocFrom_pages hwf hfrom hpool).mp hdry)
      unfold State.refills at hrefills
      rw [hsame] at hrefills
      omega

end Exact

end Gandr.Mmap
