import Gandr.Mmap.Model

/-! Who owns a node. At every moment a node is linked in the tree, held by the
running call, on the free list, or a slot not yet issued, and never two of
these at once. -/

namespace Gandr.Mmap

open Links

/-- The slots from `alloc_next` on. -/
def slots (T : Target) (s : State) : List Ptr :=
  (List.range s.allocatable).map fun i => s.allocNext + i * T.sizeofEntry

/-- How many nodes the pool was given so far. -/
def capacity (T : Target) (s : State) : ℕ :=
  mmapStaticSlots + s.nodePages.length * T.slotsPerPage

/-- `hand` are the nodes of the running call, `free` the free list in order. -/
structure Owned (T : Target) (s : State) (hand free : List Ptr) : Prop where
  chain : Linked s.rbeLeft s.lastFreed free
  nodup : (s.tree ++ hand ++ free ++ slots T s).Nodup
  null : 0 ∉ s.tree ++ hand ++ free ++ slots T s
  total : (s.tree ++ hand ++ free ++ slots T s).length ≤ capacity T s

/-- Neither the table nor the records of taken pages and stale calls changed. -/
structure Quiet (s s' : State) : Prop where
  table : s'.overlapPrecedence = s.overlapPrecedence
  pages : s'.nodePages = s.nodePages
  stale : s'.staleCalls = s.staleCalls

theorem Quiet.refl (s : State) : Quiet s s := ⟨rfl, rfl, rfl⟩

theorem Quiet.trans {s t u : State} (h : Quiet s t) (h' : Quiet t u) : Quiet s u :=
  ⟨h'.table.trans h.table, h'.pages.trans h.pages, h'.stale.trans h.stale⟩

theorem slots_succ (T : Target) (s : State) {k : ℕ} (h : s.allocatable = k + 1) :
    slots T s = s.allocNext ::
      slots T { s with allocNext := s.allocNext + T.sizeofEntry, allocatable := k } := by
  simp only [slots, h, List.range_succ_eq_map, List.map_cons, List.map_map, Nat.zero_mul,
    Nat.add_zero]
  congr 1
  apply List.map_congr_left
  intro i _
  simp only [Function.comp_apply, Nat.succ_eq_add_one]
  ring

theorem slots_nodup (T : Target) (s : State) : (slots T s).Nodup := by
  refine List.Nodup.map ?_ List.nodup_range
  intro i j hij
  exact Nat.eq_of_mul_eq_mul_right T.sizeofEntry_pos (Nat.add_left_cancel hij)

namespace Owned

variable {T : Target} {s : State} {hand free l₁ l₂ : List Ptr} {n : Ptr}

theorem tree_nodup (h : Owned T s hand free) : s.tree.Nodup := by
  have := h.nodup
  simp only [List.append_assoc, List.nodup_append] at this
  exact this.1

theorem length_tree (h : Owned T s hand free) : s.tree.length ≤ capacity T s := by
  have := h.total
  simp only [List.length_append] at this
  omega

theorem ne_null (h : Owned T s hand free) (hn : n ∈ s.tree) : n ≠ 0 := by
  rintro rfl
  exact h.null (by simp [hn])

theorem not_mem (h : Owned T s hand free) (ht : s.tree = l₁ ++ n :: l₂) : n ∉ l₁ ∧ n ∉ l₂ := by
  have hd := h.tree_nodup
  rw [ht, List.nodup_middle, List.nodup_cons, List.mem_append, not_or] at hd
  exact hd.1

theorem fresh (h : Owned T s (n :: hand) free) : n ≠ 0 ∧ n ∉ s.tree ∧ n ∉ free := by
  have hd := h.nodup
  have h0 := h.null
  simp only [List.append_assoc, List.cons_append, List.nodup_middle, List.nodup_cons,
    List.mem_append, not_or] at hd
  refine ⟨?_, hd.1.1, hd.1.2.2.1⟩
  rintro rfl
  exact h0 (by simp)

theorem unlink (h : Owned T s hand free) (ht : s.tree = l₁ ++ n :: l₂) :
    Owned T { s with tree := l₁ ++ l₂ } (n :: hand) free := by
  have hp : (l₁ ++ l₂ ++ n :: hand ++ free ++ slots T s).Perm
      (s.tree ++ hand ++ free ++ slots T s) := by
    rw [ht, List.perm_iff_count]
    intro a
    simp only [List.count_append, List.count_cons]
    omega
  exact ⟨h.chain, hp.nodup_iff.mpr h.nodup, fun h0 => h.null (hp.mem_iff.mp h0),
    hp.length_eq ▸ h.total⟩

theorem link (h : Owned T s (n :: hand) free) (ht : s.tree = l₁ ++ l₂) :
    Owned T (s.link n (l₁ ++ n :: l₂)) hand free := by
  have hp : (l₁ ++ n :: l₂ ++ hand ++ free ++ slots T s).Perm
      (s.tree ++ n :: hand ++ free ++ slots T s) := by
    rw [ht, List.perm_iff_count]
    intro a
    simp only [List.count_append, List.count_cons]
    omega
  exact ⟨h.chain.update h.fresh.2.2, hp.nodup_iff.mpr h.nodup,
    fun h0 => h.null (hp.mem_iff.mp h0), hp.length_eq ▸ h.total⟩

theorem freed (h : Owned T s (n :: hand) free) : Owned T (mmapFreeEntry s n) hand (n :: free) := by
  obtain ⟨h0, -, hf⟩ := h.fresh
  have hp : (s.tree ++ hand ++ n :: free ++ slots T s).Perm
      (s.tree ++ n :: hand ++ free ++ slots T s) := by
    rw [List.perm_iff_count]
    intro a
    simp only [List.count_append, List.count_cons]
    omega
  exact ⟨h.chain.push h0 hf, hp.nodup_iff.mpr h.nodup, fun h0 => h.null (hp.mem_iff.mp h0),
    hp.length_eq ▸ h.total⟩

theorem setEntry (h : Owned T s hand free) (m : Ptr) (e : MemoryMapEntry) :
    Owned T (s.setEntry m e) hand free := ⟨h.chain, h.nodup, h.null, h.total⟩

theorem bumpKey (h : Owned T s hand free) : Owned T s.bumpKey hand free :=
  ⟨h.chain, h.nodup, h.null, h.total⟩

/-- An empty tree with the static slots as its pool. -/
theorem static (htree : s.tree = []) (hlast : s.lastFreed = 0)
    (hnext : s.allocNext = T.staticSlots) (hslots : s.allocatable = mmapStaticSlots) :
    Owned T s [] [] := by
  have hlen : (slots T s).length = mmapStaticSlots := by simp [slots, hslots]
  refine ⟨hlast, ?_, ?_, ?_⟩
  · simpa [htree] using slots_nodup T s
  · simp only [htree, List.append_nil, List.nil_append]
    intro h
    obtain ⟨i, -, hi⟩ := List.mem_map.mp h
    rw [hnext] at hi
    exact absurd (Nat.eq_zero_of_add_eq_zero_right hi) T.staticSlots_pos.ne'
  · simp only [htree, List.append_nil, List.nil_append, hlen, capacity]
    exact Nat.le_add_right ..

end Owned

section TreeOperations

variable {T : Target} {s : State} {hand free l₁ l₂ : List Ptr} {n m : Ptr}

@[simp] theorem State.link_tree : (s.link n l₁).tree = l₁ := rfl

@[simp] theorem State.link_entry : (s.link n l₁).entry = s.entry := rfl

theorem use_of_mem (h : n ∈ s.tree) : s.use n = s := by simp [State.use, h]

theorem rbRemove_linked (h : Owned T s hand free) (ht : s.tree = l₁ ++ n :: l₂) :
    rbRemove s n = { s with tree := l₁ ++ l₂ } := by
  have hn : n ∈ s.tree := by simp [ht]
  have he : s.tree.erase n = l₁ ++ l₂ := by
    rw [ht]
    exact erase_append (h.not_mem ht).1
  rw [rbRemove, if_pos hn, use_of_mem hn, he]

theorem rbNext_cons (h : Owned T s hand free) (ht : s.tree = l₁ ++ n :: m :: l₂) :
    rbNext s n = m := by
  rw [rbNext, ht, after_append (h.not_mem ht).1]
  rfl

theorem rbNext_last (h : Owned T s hand free) (ht : s.tree = l₁ ++ [n]) : rbNext s n = 0 := by
  rw [rbNext, ht, after_append (h.not_mem ht).1]
  rfl

theorem rbPrev_append (h : Owned T s hand free) (ht : s.tree = l₁ ++ m :: n :: l₂) :
    rbPrev s n = m := by
  have hn : n ∈ s.tree := by simp [ht]
  have ht' : s.tree = (l₁ ++ [m]) ++ n :: l₂ := by simpa using ht
  have hd := (h.not_mem ht').1
  simp only [List.mem_append, List.mem_singleton, not_or] at hd
  rw [rbPrev, if_pos hn, ht]
  exact before_append hd.1 hd.2

theorem rbPrev_head (h : Owned T s hand free) (ht : s.tree = n :: l₂) : rbPrev s n = 0 := by
  have hn : n ∈ s.tree := by simp [ht]
  have ht' : s.tree = [] ++ n :: l₂ := ht
  rw [rbPrev, if_pos hn, ht]
  exact before_head (h.not_mem ht').2

theorem rbInsert_new (h0 : n ≠ 0) (ht : s.tree = l₁ ++ l₂)
    (h₁ : ∀ m ∈ l₁, (s.entry m).physicalStart < (s.entry n).physicalStart)
    (h₂ : ∀ m ∈ l₂, (s.entry n).physicalStart < (s.entry m).physicalStart) :
    rbInsert s n = (0, s.link n (l₁ ++ n :: l₂)) := by
  have hf : s.tree.find?
      (fun m => (s.entry m).physicalStart = (s.entry n).physicalStart) = none := by
    rw [List.find?_eq_none, ht]
    intro m hm
    rcases List.mem_append.mp hm with hm | hm
    · simpa using (h₁ m hm).ne
    · simpa using (h₂ m hm).ne'
  have hb₁ : ∀ m ∈ l₁, decide ((s.entry m).physicalStart < (s.entry n).physicalStart) = true :=
    fun m hm => by simpa using h₁ m hm
  have hb₂ : ∀ m ∈ l₂, ¬ decide ((s.entry m).physicalStart < (s.entry n).physicalStart) = true :=
    fun m hm => by simpa using (h₂ m hm).le
  simp only [rbInsert, hf, if_neg h0]
  congr 2
  rw [ht, List.takeWhile_append_of_pos hb₁, List.dropWhile_append_of_pos hb₁]
  cases l₂ with
  | nil => simp
  | cons m rest =>
    have := hb₂ m List.mem_cons_self
    simp [this]

/-- A linked node stays linked. -/
theorem rbInsert_mem (hm : m ∈ s.tree) : m ∈ (rbInsert s n).2.tree := by
  unfold rbInsert
  dsimp only
  split
  · exact hm
  · rw [State.link_tree]
    split_ifs
    · exact hm
    · rw [List.mem_append, List.mem_cons, or_left_comm, ← List.mem_append,
        List.takeWhile_append_dropWhile]
      exact .inr hm

theorem rbInsert_old (ht : s.tree = l₁ ++ m :: l₂)
    (h₁ : ∀ k ∈ l₁, (s.entry k).physicalStart < (s.entry n).physicalStart)
    (hm : (s.entry m).physicalStart = (s.entry n).physicalStart) :
    rbInsert s n = (m, s) := by
  have hf : s.tree.find?
      (fun k => (s.entry k).physicalStart = (s.entry n).physicalStart) = some m := by
    rw [ht, List.find?_append, List.find?_eq_none.mpr]
    · simp [hm]
    · intro k hk
      simpa using (h₁ k hk).ne
  simp only [rbInsert, hf]

end TreeOperations

section Allocation

variable {T : Target} {s : State} {free : List Ptr}

/-- The node that stays on top of the free list once one is issued. -/
def State.nextFree (s : State) : Ptr := if s.lastFreed = 0 then 0 else s.rbeLeft s.lastFreed

/-- The pool can issue a node. -/
def PoolReady (s : State) : Prop := s.lastFreed ≠ 0 ∨ s.allocatable ≠ 0

instance (s : State) : Decidable (PoolReady s) := inferInstanceAs (Decidable (_ ∨ _))

theorem not_poolReady {s : State} (h : ¬ PoolReady s) : s.lastFreed = 0 ∧ s.allocatable = 0 := by
  simpa [PoolReady] using h

/-- The first slot not yet issued is issued. -/
def State.issue (T : Target) (s : State) : State :=
  { s with allocNext := s.allocNext + T.sizeofEntry, allocatable := s.allocatable - 1 }

theorem Owned.issue (h : Owned T s [] free) (hk : s.allocatable ≠ 0) :
    Owned T (s.issue T) [s.allocNext] free := by
  obtain ⟨k, hk⟩ := Nat.exists_eq_succ_of_ne_zero hk
  have hs : slots T s = s.allocNext :: slots T (s.issue T) := by
    rw [slots_succ T s hk, State.issue, hk, Nat.succ_sub_one]
  have hp : (s.tree ++ [s.allocNext] ++ free ++ slots T (s.issue T)).Perm
      (s.tree ++ [] ++ free ++ slots T s) := by
    rw [hs, List.perm_iff_count]
    intro a
    simp only [List.count_append, List.count_cons, List.count_nil]
    omega
  exact ⟨h.chain, hp.nodup_iff.mpr h.nodup, fun h0 => h.null (hp.mem_iff.mp h0),
    hp.length_eq ▸ h.total⟩

/-- A state with a node to issue issues one it owns and changes nothing else. -/
theorem mmapAllocEntry_pool (h : Owned T s [] free)
    (hpool : PoolReady s) :
    ∃ n s' free', mmapAllocEntry T s = .ok (n, s') ∧ Owned T s' [n] free' ∧
      s'.tree = s.tree ∧ s'.entry = s.entry ∧ s'.lastFreed = s.nextFree ∧
      s'.frees = s.frees ∧ Quiet s s' := by
  by_cases hf : s.lastFreed = 0
  · have hk : s.allocatable ≠ 0 := hpool.resolve_left (not_not.mpr hf)
    refine ⟨s.allocNext, s.issue T, free, ?_, h.issue hk, rfl, rfl, ?_, rfl, rfl, rfl, rfl⟩
    · simp [mmapAllocEntry, hf, hk, State.issue]
    · simp [State.nextFree, hf, State.issue]
  · cases free with
    | nil => exact absurd h.chain hf
    | cons x rest =>
      obtain ⟨hx, hx0, hrest⟩ := h.chain
      refine ⟨s.lastFreed, { s with lastFreed := s.rbeLeft s.lastFreed }, rest,
        ?_, ?_, rfl, rfl, ?_, rfl, rfl, rfl, rfl⟩
      · simp [mmapAllocEntry, hf]
      · rw [hx]
        have hp : (s.tree ++ [x] ++ rest ++ slots T s).Perm
            (s.tree ++ [] ++ x :: rest ++ slots T s) := by
          rw [List.perm_iff_count]
          intro a
          simp only [List.count_append, List.count_cons, List.count_nil]
          omega
        exact ⟨hrest, hp.nodup_iff.mpr h.nodup, fun h0 => h.null (hp.mem_iff.mp h0),
    hp.length_eq ▸ h.total⟩
      · simp [State.nextFree, hf]

theorem mmapAllocEntry_error {s : State} {m : String} (h : mmapAllocEntry T s = .error m) :
    ¬ PoolReady s ∧ m = "Out of memory" := by
  unfold mmapAllocEntry at h
  dsimp only at h
  split_ifs at h with h₁ h₂ h₃
  · simp only [Except.error.injEq] at h
    exact ⟨by simpa [PoolReady] using ⟨not_not.mp h₁, h₂⟩, h.symm⟩

end Allocation

end Gandr.Mmap
