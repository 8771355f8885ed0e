import Gandr.Mmap.Own
import Gandr.Mmap.Steps

/-! States that no call can tell apart. What lies in a node that is neither
linked nor on the free list is overwritten before it is read: two states that
agree on the nodes of `K`, on the tree, the free list, the pool and the table go
through every call in step. -/

namespace Gandr.Mmap

structure AlikeOn (K : Set Ptr) (s t : State) : Prop where
  tree : t.tree = s.tree
  lastFreed : t.lastFreed = s.lastFreed
  allocNext : t.allocNext = s.allocNext
  allocatable : t.allocatable = s.allocatable
  table : t.overlapPrecedence = s.overlapPrecedence
  frees : t.frees = s.frees
  /-- a node of a taken page keeps this field of what was there -/
  virtualStart : ∀ n, (t.entry n).virtualStart = (s.entry n).virtualStart
  linked : ∀ n ∈ s.tree, n ∈ K
  null : 0 ∉ s.tree
  freed : s.lastFreed ≠ 0 → s.lastFreed ∈ K
  entry : ∀ n ∈ K, t.entry n = s.entry n
  left : ∀ n ∈ K, t.rbeLeft n = s.rbeLeft n
  closed : ∀ n ∈ K, s.rbeLeft n ≠ 0 → s.rbeLeft n ∈ K

/-- Both calls end in the same way, and where they return the states are still
alike, on more nodes perhaps. -/
inductive Outcome.AlikeFrom (K : Set Ptr) : Outcome → Outcome → Prop
  | returned {K' : Set Ptr} {s t : State} (grows : K ⊆ K') (alike : AlikeOn K' s t) :
    AlikeFrom K (.returned s) (.returned t)
  | panicked (m : String) (s t : State) : AlikeFrom K (.panicked m s) (.panicked m t)
  | outOfFuel (s t : State) : AlikeFrom K (.outOfFuel s) (.outOfFuel t)

namespace Outcome.AlikeFrom

variable {K K' : Set Ptr} {o o' : Outcome} {f g : State → Outcome}

theorem mono (h : AlikeFrom K' o o') (hK : K ⊆ K') : AlikeFrom K o o' := by
  cases h with
  | returned grows alike => exact .returned (hK.trans grows) alike
  | panicked m s t => exact .panicked m s t
  | outOfFuel s t => exact .outOfFuel s t

theorem andThen (h : AlikeFrom K o o')
    (hf : ∀ K' s t, K ⊆ K' → AlikeOn K' s t → AlikeFrom K' (f s) (g t)) :
    AlikeFrom K (o.andThen f) (o'.andThen g) := by
  cases h with
  | returned grows alike => exact (hf _ _ _ grows alike).mono grows
  | panicked m s t => exact .panicked m s t
  | outOfFuel s t => exact .outOfFuel s t

end Outcome.AlikeFrom

namespace AlikeOn

variable {K : Set Ptr} {s t : State} {n m : Ptr}

theorem ret (h : AlikeOn K s t) : Outcome.AlikeFrom K (.returned s) (.returned t) :=
  .returned subset_rfl h

theorem setEntry (h : AlikeOn K s t) (n : Ptr) (e : MemoryMapEntry) :
    AlikeOn K (s.setEntry n e) (t.setEntry n e) := by
  refine ⟨h.tree, h.lastFreed, h.allocNext, h.allocatable, h.table, h.frees, ?_, h.linked, h.null,
    h.freed, ?_, h.left, h.closed⟩
  · intro m
    by_cases hm : m = n
    · simp [State.setEntry, hm]
    · simpa [State.setEntry, hm] using h.virtualStart m
  · intro m hK
    by_cases hm : m = n
    · simp [State.setEntry, hm]
    · simpa [State.setEntry, hm] using h.entry m hK

theorem bumpKey (h : AlikeOn K s t) : AlikeOn K s.bumpKey t.bumpKey :=
  ⟨h.tree, h.lastFreed, h.allocNext, h.allocatable, h.table, h.frees, h.virtualStart, h.linked,
    h.null, h.freed, h.entry, h.left, h.closed⟩

theorem use (h : AlikeOn K s t) (n : Ptr) : AlikeOn K (s.use n) (t.use n) := by
  by_cases hm : n ∈ s.tree
  · rw [State.use, State.use, if_pos hm, if_pos (h.tree ▸ hm)]
    exact h
  · rw [State.use, State.use, if_neg hm, if_neg (h.tree ▸ hm)]
    exact ⟨h.tree, h.lastFreed, h.allocNext, h.allocatable, h.table, h.frees, h.virtualStart,
      h.linked, h.null, h.freed, h.entry, h.left, h.closed⟩

theorem rbNext (h : AlikeOn K s t) (n : Ptr) : rbNext t n = rbNext s n := by
  rw [Mmap.rbNext, Mmap.rbNext, h.tree]

theorem rbNext_mem (h : AlikeOn K s t) (hn : Mmap.rbNext s n ≠ 0) : Mmap.rbNext s n ∈ K :=
  h.linked _ (Links.after_mem hn)

theorem rbPrev (h : AlikeOn K s t) (hn : n ∈ K) : rbPrev t n = rbPrev s n := by
  rw [Mmap.rbPrev, Mmap.rbPrev, h.tree, h.left n hn]

theorem rbPrev_mem (h : AlikeOn K s t) (hn : n ∈ K) (h0 : Mmap.rbPrev s n ≠ 0) :
    Mmap.rbPrev s n ∈ K := by
  unfold Mmap.rbPrev at h0 ⊢
  split_ifs at h0 ⊢
  · exact h.linked _ (Links.before_mem h0)
  · exact h.closed n hn h0

/-- The chain of left links from a node of `K` stays in `K`. -/
theorem leftSpine (h : AlikeOn K s t) (fuel : ℕ) {p : Ptr} (hp : p ≠ 0 → p ∈ K) :
    leftSpine t.rbeLeft fuel p = leftSpine s.rbeLeft fuel p ∧
      ∀ m ∈ leftSpine s.rbeLeft fuel p, m ≠ 0 ∧ m ∈ K := by
  induction fuel generalizing p with
  | zero => simp [Mmap.leftSpine]
  | succ fuel ih =>
    simp only [Mmap.leftSpine]
    by_cases h0 : p = 0
    · simp [h0]
    · have hK := hp h0
      obtain ⟨h₁, h₂⟩ := ih (h.closed p hK)
      rw [if_neg h0, if_neg h0, h.left p hK, h₁]
      exact ⟨rfl, List.forall_mem_cons.mpr ⟨⟨h0, hK⟩, h₂⟩⟩

theorem rbRemove (h : AlikeOn K s t) (hn : n ∈ K) : AlikeOn K (rbRemove s n) (rbRemove t n) := by
  have huse := h.use n
  unfold Mmap.rbRemove
  rw [h.tree, h.frees, h.left n hn]
  obtain ⟨h₁, h₂⟩ := h.leftSpine s.frees (h.closed n hn)
  split_ifs
  · exact ⟨rfl, huse.lastFreed, huse.allocNext, huse.allocatable, huse.table, huse.frees,
      huse.virtualStart, fun m hm => h.linked m (List.mem_of_mem_erase hm),
      fun h0 => h.null (List.mem_of_mem_erase h0), huse.freed, huse.entry, huse.left, huse.closed⟩
  · exact ⟨congrArg List.reverse h₁, huse.lastFreed, huse.allocNext, huse.allocatable, huse.table,
      huse.frees, huse.virtualStart, fun m hm => (h₂ m (List.mem_reverse.mp hm)).2,
      fun h0 => (h₂ 0 (List.mem_reverse.mp h0)).1 rfl, huse.freed, huse.entry, huse.left,
      huse.closed⟩

theorem grow_left {f g : Ptr → Ptr} {q : Ptr} (h : ∀ m ∈ K, f m = g m) :
    ∀ m ∈ insert n K, Function.update f n q m = Function.update g n q m := by
  intro m hm
  by_cases hmn : m = n
  · simp [hmn]
  · simpa [hmn] using h m (hm.resolve_left hmn)

theorem grow_closed {g : Ptr → Ptr} {q : Ptr} (h : ∀ m ∈ K, g m ≠ 0 → g m ∈ K)
    (hq : q ≠ 0 → q ∈ K) : ∀ m ∈ insert n K, Function.update g n q m ≠ 0 →
      Function.update g n q m ∈ insert n K := by
  intro m hm
  by_cases hmn : m = n
  · simp only [hmn, Function.update_self]
    exact fun h0 => .inr (hq h0)
  · simp only [Function.update_of_ne hmn]
    exact fun h0 => .inr (h m (hm.resolve_left hmn) h0)

/-- A freed node has its contents and the link to the free list. -/
theorem mmapFreeEntry (h : AlikeOn K s t) (hn : t.entry n = s.entry n) :
    AlikeOn (insert n K) (mmapFreeEntry s n) (mmapFreeEntry t n) := by
  refine ⟨h.tree, rfl, h.allocNext, h.allocatable, h.table, congrArg (· + 1) h.frees,
    h.virtualStart, fun m hm => .inr (h.linked m hm), h.null, fun _ => .inl rfl, ?_, ?_, ?_⟩
  · rintro m (rfl | hm)
    · exact hn
    · exact h.entry m hm
  · simp only [Mmap.mmapFreeEntry, h.lastFreed]
    exact grow_left h.left
  · exact grow_closed h.closed h.freed

theorem freeLinked (h : AlikeOn K s t) (hn : n ∈ K) :
    AlikeOn K (Mmap.mmapFreeEntry s n) (Mmap.mmapFreeEntry t n) := by
  have hfree := h.mmapFreeEntry (h.entry n hn)
  rwa [Set.insert_eq_of_mem hn] at hfree

theorem mem_linked {f : Ptr → Bool} (hm : m ∈ (s.link n (if n = 0 then s.tree
    else s.tree.takeWhile f ++ n :: s.tree.dropWhile f)).tree) : m = n ∨ m ∈ s.tree := by
  rw [State.link_tree] at hm
  split_ifs at hm
  · exact .inr hm
  · rwa [List.mem_append, List.mem_cons, or_left_comm, ← List.mem_append,
      List.takeWhile_append_dropWhile] at hm

/-- `RB_INSERT` finds the same node in both, or links the new one. -/
theorem rbInsert (h : AlikeOn K s t) (hn : t.entry n = s.entry n) :
    (rbInsert t n).1 = (rbInsert s n).1 ∧
      ((∃ old ∈ s.tree, Mmap.rbInsert s n = (old, s) ∧ Mmap.rbInsert t n = (old, t)) ∨
        (Mmap.rbInsert s n).1 = 0 ∧
          AlikeOn (insert n K) (Mmap.rbInsert s n).2 (Mmap.rbInsert t n).2) := by
  have hkey : ∀ m ∈ s.tree, (t.entry m).physicalStart = (s.entry m).physicalStart :=
    fun m hm => by rw [h.entry m (h.linked m hm)]
  have hfind : t.tree.find? (fun m => (t.entry m).physicalStart = (t.entry n).physicalStart) =
      s.tree.find? (fun m => (s.entry m).physicalStart = (s.entry n).physicalStart) := by
    rw [h.tree, hn]
    refine List.find?_congr fun m hm => ?_
    rw [hkey m hm]
  unfold Mmap.rbInsert
  dsimp only
  rw [hfind]
  cases hold : s.tree.find?
      (fun m => decide ((s.entry m).physicalStart = (s.entry n).physicalStart)) with
  | some old =>
    exact ⟨rfl, .inl ⟨old, List.mem_of_find?_eq_some hold, rfl, rfl⟩⟩
  | none =>
    have hbelow : ∀ m ∈ s.tree,
        decide ((t.entry m).physicalStart < (t.entry n).physicalStart) =
          decide ((s.entry m).physicalStart < (s.entry n).physicalStart) :=
      fun m hm => by rw [hkey m hm, hn]
    obtain ⟨htake, hdrop⟩ := Links.while_congr hbelow
    refine ⟨rfl, .inr ⟨rfl, ?_⟩⟩
    dsimp only
    rw [h.tree, htake, hdrop]
    refine ⟨rfl, h.lastFreed, h.allocNext, h.allocatable, h.table, h.frees, h.virtualStart, ?_, ?_,
      fun h0 => .inr (h.freed h0), ?_, grow_left h.left, grow_closed h.closed (by simp)⟩
    · intro m hm
      exact (mem_linked hm).imp id (h.linked m)
    · intro hm
      by_cases h0 : n = 0
      · rw [State.link_tree, if_pos h0] at hm
        exact h.null hm
      · exact (mem_linked hm).elim (fun heq => h0 heq.symm) h.null
    · rintro m (rfl | hm)
      · exact hn
      · exact h.entry m hm

theorem mmapClean {T : Target} (h : AlikeOn K s t) :
    AlikeOn K (mmapClean T s) (mmapClean T t) where
  tree := rfl
  lastFreed := rfl
  allocNext := rfl
  allocatable := rfl
  table := h.table
  frees := rfl
  virtualStart := h.virtualStart
  linked := by simp [Mmap.mmapClean]
  null := by simp [Mmap.mmapClean]
  freed h0 := absurd rfl h0
  entry := h.entry
  left := h.left
  closed := h.closed

theorem absorb (h : AlikeOn K s t) (hn : n ∈ K) (hm : m ∈ K) :
    AlikeOn K (absorb s n m) (absorb t n m) := by
  have hgrown : grown t n m = grown s n m := by
    rw [grown, grown, h.entry n hn, h.entry m hm]
  rw [Mmap.absorb, Mmap.absorb, hgrown]
  exact (((h.setEntry n _).rbRemove hm).freeLinked hm).bumpKey

theorem mergeable_iff (h : AlikeOn K s t) (hn : n ∈ K) (hm : m ∈ K) :
    Mergeable t n m ↔ Mergeable s n m := by
  rw [Mergeable, Mergeable, h.entry n hn, h.entry m hm]

theorem mergeAdjacent (h : AlikeOn K s t) (hn : n ∈ K) :
    AlikeOn K (mergeAdjacent s n) (mergeAdjacent t n) := by
  have huse := (h.use n).use n
  unfold Mmap.mergeAdjacent
  dsimp only
  rw [huse.rbPrev hn, huse.rbNext n]
  generalize (s.use n).use n = s' at *
  generalize (t.use n).use n = t' at *
  have hprev : Mmap.rbPrev s' n ≠ 0 → Mmap.rbPrev s' n ∈ K := huse.rbPrev_mem hn
  have hnext : Mmap.rbNext s' n ≠ 0 → Mmap.rbNext s' n ∈ K := huse.rbNext_mem
  generalize Mmap.rbPrev s' n = prev at *
  generalize Mmap.rbNext s' n = next at *
  -- the second merge, around whichever node is the middle by then
  have hsecond : ∀ {u v : State} {mid : Ptr}, AlikeOn K u v → mid ∈ K →
      AlikeOn K (if next ≠ 0 ∧ Mergeable u mid next then Mmap.absorb u mid next else u)
        (if next ≠ 0 ∧ Mergeable v mid next then Mmap.absorb v mid next else v) := by
    intro u v mid huv hmid
    by_cases h0 : next ≠ 0
    · simp only [huv.mergeable_iff hmid (hnext h0)]
      split_ifs
      · exact huv.absorb hmid (hnext h0)
      · exact huv
    · rw [if_neg (fun hc => h0 hc.1), if_neg (fun hc => h0 hc.1)]
      exact huv
  by_cases hc : prev ≠ 0 ∧ Mergeable s' prev n
  · have hc' : prev ≠ 0 ∧ Mergeable t' prev n :=
      ⟨hc.1, (huse.mergeable_iff (hprev hc.1) hn).mpr hc.2⟩
    rw [if_pos hc, if_pos hc']
    exact hsecond (huse.absorb (hprev hc.1) hn) (hprev hc.1)
  · have hc' : ¬ (prev ≠ 0 ∧ Mergeable t' prev n) :=
      fun hc' => hc ⟨hc'.1, (huse.mergeable_iff (hprev hc'.1) hn).mp hc'.2⟩
    rw [if_neg hc, if_neg hc']
    exact hsecond huse hn

end AlikeOn

/-- Alike on `K` and perhaps on more nodes. -/
def AlikeSince (K : Set Ptr) (s t : State) : Prop := ∃ K', K ⊆ K' ∧ AlikeOn K' s t

/-- The same node is issued, or both panic. -/
inductive IssuedAlike (K : Set Ptr) :
    Except String (Ptr × State) → Except String (Ptr × State) → Prop
  | error (m : String) : IssuedAlike K (.error m) (.error m)
  | ok {n : Ptr} {s t : State} (alike : AlikeSince K s t) :
    IssuedAlike K (.ok (n, s)) (.ok (n, t))

theorem AlikeOn.since {K : Set Ptr} {s t : State} (h : AlikeOn K s t) : AlikeSince K s t :=
  ⟨K, subset_rfl, h⟩

namespace AlikeOn

variable {T : Target} {K : Set Ptr} {s t : State} {n m : Ptr} {type : MemoryType}

theorem takeNodePage (h : AlikeOn K s t) (page slots : ℕ) :
    AlikeOn K (takeNodePage s page slots) (takeNodePage t page slots) :=
  ⟨h.tree, h.lastFreed, rfl, rfl, h.table, h.frees, h.virtualStart, h.linked, h.null, h.freed,
    h.entry, h.left, h.closed⟩

theorem withPool (h : AlikeOn K s t) {a a' k k' : ℕ} (ha : a' = a) (hk : k' = k) :
    AlikeOn K { s with allocNext := a, allocatable := k }
      { t with allocNext := a', allocatable := k' } :=
  ⟨h.tree, h.lastFreed, ha, hk, h.table, h.frees, h.virtualStart, h.linked, h.null, h.freed,
    h.entry, h.left, h.closed⟩

theorem slicePrev (h : AlikeOn K s t) (hm : m ∈ K) (hn : n ∈ K) (k : ℕ) :
    AlikeOn K (slicePrev s m n k) (slicePrev t m n k) := by
  unfold Mmap.slicePrev
  dsimp only
  rw [h.entry n hn]
  have hset := h.setEntry n { s.entry n with size := Word.add 64 (s.entry n).size k }
  rw [hset.entry m hm]
  exact hset.setEntry m _

theorem sliceNext (h : AlikeOn K s t) (hm : m ∈ K) (hn : n ∈ K) (k : ℕ) :
    AlikeOn K (sliceNext s m n k) (sliceNext t m n k) := by
  unfold Mmap.sliceNext
  dsimp only
  rw [h.entry n hn]
  have hset := h.setEntry n { s.entry n with
    size := Word.add 64 (s.entry n).size k
    physicalStart := Word.sub 64 (s.entry n).physicalStart k }
  rw [hset.entry m hm]
  exact hset.setEntry m _

/-- Of what was in the new node only the virtual start is kept. -/
theorem sliceNew (h : AlikeOn K s t) (hm : m ∈ K) (new : Ptr) (type : MemoryType) (k : ℕ) :
    AlikeSince K (sliceNew s m new type k) (sliceNew t m new type k) := by
  unfold Mmap.sliceNew
  dsimp only
  rw [h.entry m hm, h.virtualStart new]
  have hset := h.setEntry new { s.entry new with
    type := type
    physicalStart := (s.entry m).physicalStart
    size := k
    attributes := (s.entry m).attributes }
  rw [hset.entry m hm]
  have hset' := hset.setEntry m (dropFront ((s.setEntry new { s.entry new with
    type := type
    physicalStart := (s.entry m).physicalStart
    size := k
    attributes := (s.entry m).attributes }).entry m) k)
  have hnew : ∀ (u v : State) (e e' : MemoryMapEntry),
      ((v.setEntry new e).setEntry m e').entry new = ((u.setEntry new e).setEntry m e').entry new := by
    intro u v e e'
    by_cases hmn : new = m
    · simp [State.setEntry, hmn]
    · simp [State.setEntry, hmn]
  rcases (hset'.rbInsert (hnew s t _ _)).2 with ⟨old, -, hs, ht⟩ | ⟨-, hins⟩
  · rw [hs, ht]
    exact hset'.since
  · exact ⟨_, Set.subset_insert new K, hins⟩

theorem prevFits_iff (h : AlikeOn K s t) (hm : m ∈ K) (hn : n ≠ 0 → n ∈ K) :
    PrevFits t type m n ↔ PrevFits s type m n := by
  unfold PrevFits
  constructor
  · rintro ⟨h0, hc⟩
    rw [h.entry m hm, h.entry n (hn h0)] at hc
    exact ⟨h0, hc⟩
  · rintro ⟨h0, hc⟩
    rw [h.entry m hm, h.entry n (hn h0)]
    exact ⟨h0, hc⟩

theorem nextFits_iff (h : AlikeOn K s t) (hm : m ∈ K) (hn : n ≠ 0 → n ∈ K) :
    NextFits t type m n ↔ NextFits s type m n := by
  unfold NextFits
  constructor
  · rintro ⟨h0, hc⟩
    rw [h.entry m hm, h.entry n (hn h0)] at hc
    exact ⟨h0, hc⟩
  · rintro ⟨h0, hc⟩
    rw [h.entry m hm, h.entry n (hn h0)]
    exact ⟨h0, hc⟩

theorem refillFrom (h : AlikeOn K s t) (hm : m ∈ K) :
    AlikeSince K (refillFrom T s m) (refillFrom T t m) := by
  have hprev : Mmap.rbPrev s m ≠ 0 → Mmap.rbPrev s m ∈ K := h.rbPrev_mem hm
  have hnext : Mmap.rbNext s m ≠ 0 → Mmap.rbNext s m ∈ K := h.rbNext_mem
  unfold Mmap.refillFrom
  dsimp only
  simp only [h.entry m hm, h.rbPrev hm, h.rbNext m, h.prevFits_iff hm hprev,
    h.nextFits_iff hm hnext]
  split_ifs with h₁ h₂ h₃ h₄
  · exact (((h.takeNodePage _ _).setEntry m _).mergeAdjacent hm).bumpKey.since
  · have hpage := h.takeNodePage (T.toPtr (s.entry m).physicalStart) T.slotsPerPage
    rw [hpage.rbPrev hm]
    exact (hpage.slicePrev hm (hprev h₂.1) _).bumpKey.since
  · exact h.since
  · have hslice := h.sliceNext hm (hnext h₃.1) 4096
    rw [hslice.entry _ (hnext h₃.1)]
    exact (hslice.takeNodePage _ _).bumpKey.since
  · obtain ⟨K', hK, hslice⟩ := (h.takeNodePage (T.toPtr (s.entry m).physicalStart)
      (T.slotsPerPage - 1)).sliceNew hm (T.toPtr (s.entry m).physicalStart)
        .loaderData 4096
    exact ⟨K', hK, (hslice.withPool (congrArg (· + T.sizeofEntry) hslice.allocNext)
      hslice.allocatable).bumpKey⟩

theorem refill (h : AlikeOn K s t) (l : List Ptr) (hl : ∀ m ∈ l, m ∈ K) :
    AlikeSince K (refill T s l) (refill T t l) := by
  induction l with
  | nil => exact h.since
  | cons m rest ih =>
    obtain ⟨hm, hrest⟩ := List.forall_mem_cons.mp hl
    simp only [Mmap.refill, h.entry m hm]
    split_ifs
    · exact h.since
    · exact h.refillFrom hm
    · exact ih hrest

/-- `mmap_alloc_entry` issues the same node in both or panics in both. -/
theorem mmapAllocEntry (h : AlikeOn K s t) :
    IssuedAlike K (mmapAllocEntry T s) (mmapAllocEntry T t) := by
  have hissue : ∀ {K' : Set Ptr} {u v : State}, K ⊆ K' → AlikeOn K' u v →
      IssuedAlike K (.ok (u.allocNext, { u with
          allocNext := u.allocNext + T.sizeofEntry
          allocatable := u.allocatable - 1 }))
        (.ok (v.allocNext, { v with
          allocNext := v.allocNext + T.sizeofEntry
          allocatable := v.allocatable - 1 })) := by
    intro K' u v hK huv
    rw [huv.allocNext, huv.allocatable]
    exact .ok ⟨K', hK, huv.withPool rfl rfl⟩
  unfold Mmap.mmapAllocEntry
  by_cases hlast : s.lastFreed ≠ 0
  · have hlast' : t.lastFreed ≠ 0 := h.lastFreed ▸ hlast
    have hK := h.freed hlast
    rw [if_pos hlast, if_pos hlast', h.lastFreed]
    refine .ok ⟨K, subset_rfl, ?_⟩
    exact ⟨h.tree, h.left _ hK, h.allocNext, h.allocatable, h.table, h.frees, h.virtualStart,
      h.linked, h.null, h.closed _ hK, h.entry, h.left, h.closed⟩
  · have hlast' : ¬ t.lastFreed ≠ 0 := h.lastFreed ▸ hlast
    rw [if_neg hlast, if_neg hlast']
    dsimp only
    by_cases hdry : s.allocatable = 0
    · obtain ⟨K', hK, hrefill⟩ := h.refill (T := T) s.tree h.linked
      rw [if_pos hdry, if_pos (h.allocatable.trans hdry), h.tree]
      by_cases hnone : (Mmap.refill T s s.tree).allocatable = 0
      · rw [if_pos hnone, if_pos (hrefill.allocatable.trans hnone)]
        exact .error _
      · rw [if_neg hnone, if_neg (hrefill.allocatable ▸ hnone)]
        exact hissue hK hrefill
    · have hdry' : ¬ t.allocatable = 0 := h.allocatable ▸ hdry
      rw [if_neg hdry, if_neg hdry', if_neg hdry, if_neg hdry']
      exact hissue subset_rfl h

end AlikeOn

section Calls

variable {T : Target} {K : Set Ptr} {s t : State} {fix : Ptr → State → Outcome}
  {add : MemoryMapEntry → State → Outcome}

/-- A function of a node that two alike states go through in step. -/
def FixAlike (fix : Ptr → State → Outcome) : Prop :=
  ∀ K s t n, AlikeOn K s t → (n ≠ 0 → n ∈ K) → Outcome.AlikeFrom K (fix n s) (fix n t)

def AddAlike (add : MemoryMapEntry → State → Outcome) : Prop :=
  ∀ K s t e, AlikeOn K s t → Outcome.AlikeFrom K (add e s) (add e t)

theorem AlikeOn.splitOverlap (h : AlikeOn K s t) (hadd : AddAlike add) {first second : Ptr}
    (hf : first ∈ K) (hs : second ∈ K) (type : MemoryType) (e : MemoryMapEntry) :
    Outcome.AlikeFrom K (splitOverlap add s first second type e)
      (splitOverlap add t first second type e) := by
  unfold Mmap.splitOverlap
  dsimp only
  rw [h.entry first hf, h.entry second hs]
  exact hadd _ _ _ _ ((h.setEntry _ _).setEntry _ _)

theorem fixOverlapBody_alike (hfix : FixAlike fix) (hadd : AddAlike add) :
    FixAlike (fixOverlapBody fix add) := by
  intro K s t first h hfirst
  unfold fixOverlapBody
  by_cases h0 : first = 0
  · rw [if_pos h0, if_pos h0]
    exact h.ret
  rw [if_neg h0, if_neg h0]
  have huse := h.use first
  have hf := hfirst h0
  dsimp only
  rw [huse.rbNext first]
  generalize s.use first = s' at *
  generalize t.use first = t' at *
  have hnext : rbNext s' first ≠ 0 → rbNext s' first ∈ K := huse.rbNext_mem
  generalize rbNext s' first = second at *
  by_cases h1 : second = 0
  · rw [if_pos h1, if_pos h1]
    exact huse.ret
  rw [if_neg h1, if_neg h1]
  have hs := hnext h1
  simp only [huse.entry first hf, huse.entry second hs, huse.table]
  split_ifs
  · exact huse.ret
  · exact (huse.setEntry _ _).ret
  · exact (huse.setEntry _ _).ret
  · exact huse.splitOverlap hadd hf hs _ _
  · exact hfix _ _ _ _ ((huse.rbRemove hs).freeLinked hs) fun _ => hf
  · exact huse.splitOverlap hadd hf hs _ _
  · exact ((huse.setEntry _ _).setEntry _ _).ret

/-- The second insertion links the node in both or panics in both. -/
theorem reinsert_alike {n : Ptr} {k k' : State → Outcome} (h : AlikeOn K s t)
    (hn : t.entry n = s.entry n)
    (hk : ∀ u v, AlikeOn (insert n K) u v → Outcome.AlikeFrom (insert n K) (k u) (k' v)) :
    Outcome.AlikeFrom K (reinsert n s k) (reinsert n t k') := by
  obtain ⟨hfst, hins⟩ := h.rbInsert hn
  unfold reinsert
  dsimp only
  rw [hfst]
  rcases hins with ⟨old, hold, hs, ht⟩ | ⟨hnull, hlink⟩
  · have h0 : old ≠ 0 := fun h0 => h.null (h0 ▸ hold)
    rw [hs, ht, if_pos h0, if_pos h0]
    exact .panicked _ _ _
  · rw [if_neg (not_not.mpr hnull), if_neg (not_not.mpr hnull)]
    exact (hk _ _ hlink).mono (Set.subset_insert n K)

theorem setEntry_agrees {n m : Ptr} {e : MemoryMapEntry} (h : t.entry n = s.entry n) :
    (t.setEntry m e).entry n = (s.setEntry m e).entry n := by
  by_cases hn : n = m
  · simp [State.setEntry, hn]
  · simpa [State.setEntry, hn] using h

theorem merge_alike {n : Ptr} (hn : n ∈ K) (h : AlikeOn K s t) :
    Outcome.AlikeFrom K (.returned (mergeAdjacent s n)) (.returned (mergeAdjacent t n)) :=
  (h.mergeAdjacent hn).ret

theorem placeOld_alike {n old : Ptr} (hfix : FixAlike fix) (h : AlikeOn K s t)
    (hn : t.entry n = s.entry n) (hold : old ∈ K) (e : MemoryMapEntry) :
    Outcome.AlikeFrom K (placeOld fix e n old s) (placeOld fix e n old t) := by
  have hnK : n ∈ insert n K := Set.mem_insert n K
  unfold placeOld
  dsimp only
  simp only [h.entry old hold, h.table]
  split_ifs
  · have hfree := (h.setEntry old { s.entry old with
      type := higherPrecedence s.overlapPrecedence (s.entry old).type e.type }).mmapFreeEntry
      (setEntry_agrees hn)
    exact (merge_alike (Set.mem_insert_of_mem n hold) hfree).mono (Set.subset_insert n K)
  · refine reinsert_alike ((h.setEntry n _).setEntry old _)
      (setEntry_agrees (setEntry_agrees hn)) ?_
    exact fun u v huv => merge_alike hnK huv
  · refine reinsert_alike ((h.setEntry old _).setEntry n _)
      (setEntry_agrees (setEntry_agrees hn)) ?_
    intro u v huv
    refine (hfix _ _ _ n huv fun _ => hnK).andThen ?_
    exact fun K' u v hK huv => merge_alike (hK hnK) huv

theorem placeNew_alike {n : Ptr} (hfix : FixAlike fix) (h : AlikeOn K s t) (hn : n ∈ K) :
    Outcome.AlikeFrom K (placeNew fix n s) (placeNew fix n t) := by
  refine (hfix _ _ _ n h fun _ => hn).andThen ?_
  intro K₁ u v hK₁ huv
  rw [huv.rbPrev (hK₁ hn)]
  refine (hfix _ _ _ _ huv (huv.rbPrev_mem (hK₁ hn))).andThen ?_
  exact fun K₂ u v hK₂ huv => merge_alike (hK₂ (hK₁ hn)) huv

theorem insertEntry_alike (hfix : FixAlike fix) : AddAlike (insertEntry T fix) := by
  intro K s t e h
  have hissue := h.mmapAllocEntry (T := T)
  have hbump : ∀ (K' : Set Ptr) (u v : State), K ⊆ K' → AlikeOn K' u v →
      Outcome.AlikeFrom K' (.returned u.bumpKey) (.returned v.bumpKey) :=
    fun K' u v _ huv => huv.bumpKey.ret
  unfold insertEntry
  generalize mmapAllocEntry T s = r at hissue ⊢
  generalize mmapAllocEntry T t = r' at hissue ⊢
  cases hissue with
  | error m => exact .panicked m s t
  | @ok n u v halike =>
    obtain ⟨K', hK, huv⟩ := halike
    have hself : (v.setEntry n e).entry n = (u.setEntry n e).entry n := by simp [State.setEntry]
    have hset := huv.setEntry n e
    dsimp only
    obtain ⟨hfst, hins⟩ := hset.rbInsert hself
    rw [hfst]
    refine Outcome.AlikeFrom.andThen ?_ hbump
    rcases hins with ⟨old, hold, hs, ht⟩ | ⟨hnull, hlink⟩
    · have h0 : old ≠ 0 := fun h0 => hset.null (h0 ▸ hold)
      rw [hs, ht, if_pos h0, if_pos h0]
      exact (placeOld_alike hfix hset hself (hset.linked old hold) e).mono hK
    · rw [if_neg (not_not.mpr hnull), if_neg (not_not.mpr hnull)]
      exact (placeNew_alike hfix hlink (Set.mem_insert n K')).mono
        (hK.trans (Set.subset_insert n K'))

theorem mmapAddEntryBody_alike (hfix : FixAlike fix) (hadd : AddAlike add) :
    AddAlike (mmapAddEntryBody T fix add) := by
  have hif : ∀ (c : Prop) [Decidable c] (e : MemoryMapEntry) (K : Set Ptr) (s t : State),
      AlikeOn K s t → Outcome.AlikeFrom K (if c then Outcome.returned s else add e s)
        (if c then Outcome.returned t else add e t) := by
    intro c _ e K s t h
    split_ifs
    · exact h.ret
    · exact hadd _ _ _ _ h
  intro K s t e h
  unfold mmapAddEntryBody
  by_cases h₀ : e.size = 0
  · rw [if_pos h₀, if_pos h₀]
    exact h.ret
  rw [if_neg h₀, if_neg h₀]
  refine (hif _ _ K s t h).andThen fun K₁ u v _ huv => ?_
  cases trimFront e with
  | none => exact huv.ret
  | some e' =>
    refine (hif _ _ K₁ u v huv).andThen fun K₂ u v _ huv => ?_
    cases trimBack e' with
    | none => exact huv.ret
    | some e'' => exact insertEntry_alike hfix _ _ _ _ huv

/-- Alike states go through `fix_overlap` and `mmap_add_entry` in step. -/
theorem addEntry_alike (T : Target) (fuel : ℕ) :
    FixAlike (fixOverlap T fuel) ∧ AddAlike (mmapAddEntry T fuel) := by
  induction fuel with
  | zero =>
    exact ⟨fun K s t n _ _ => .outOfFuel s t, fun K s t e _ => .outOfFuel s t⟩
  | succ fuel ih =>
    constructor
    · rw [fixOverlap]
      exact fixOverlapBody_alike ih.1 ih.2
    · rw [mmapAddEntry]
      exact mmapAddEntryBody_alike ih.1 ih.2

end Calls

/-- Alike states have the same entries. -/
theorem AlikeOn.entries {K : Set Ptr} {s t : State} (h : AlikeOn K s t) :
    t.entries = s.entries := by
  rw [State.entries, State.entries, h.tree]
  exact List.map_congr_left fun n hn => h.entry n (h.linked n hn)

/-- The table is the built-in one and no node has a virtual start. -/
structure Plain (s : State) : Prop where
  table : s.overlapPrecedence = Mmap.overlapPrecedence
  virtualStart : ∀ n, (s.entry n).virtualStart = 0

section Plain

variable {s : State} {n : Ptr}

theorem Plain.of_eq {t : State} (h : Plain s) (hentry : t.entry = s.entry)
    (htable : t.overlapPrecedence = s.overlapPrecedence) : Plain t := by
  refine ⟨htable.trans h.table, ?_⟩
  rw [hentry]
  exact h.virtualStart

theorem Plain.setEntry {e : MemoryMapEntry} (h : Plain s) (he : Written (· = 0) s e) :
    Plain (s.setEntry n e) := by
  refine ⟨h.table, fun m => ?_⟩
  by_cases hm : m = n
  · simp only [State.setEntry, hm, Function.update_self]
    rcases he with he | ⟨k, hk⟩
    · exact he
    · exact hk.trans (h.virtualStart k)
  · simpa [State.setEntry, hm] using h.virtualStart m

theorem Plain.use (h : Plain s) (n : Ptr) : Plain (s.use n) := by
  unfold State.use
  split_ifs
  · exact h
  · exact h.of_eq rfl rfl

/-- No call with entries without a virtual start leaves the plain states. -/
theorem plain_stepClosed : StepClosed (· = 0) fun s t => Plain s → Plain t where
  zero := rfl
  refl _ := id
  trans h h' hs := h' (h hs)
  setEntry _ _ _ he hs := hs.setEntry he
  bumpKey _ hs := hs.of_eq rfl rfl
  use _ n hs := hs.use n
  insert s n hs := by
    unfold rbInsert
    dsimp only
    split
    · exact hs
    · exact hs.of_eq rfl rfl
  remove s n hs := by
    unfold rbRemove
    split_ifs
    · exact (hs.use n).of_eq rfl rfl
    · exact (hs.use n).of_eq rfl rfl
  freeNode _ _ hs := hs.of_eq rfl rfl
  takePage _ _ _ hs := hs.of_eq rfl rfl
  pool _ _ _ hs := hs.of_eq rfl rfl
  reuse _ hs := hs.of_eq rfl rfl

theorem AlikeOn.initial (T : Target) : AlikeOn ∅ (State.initial T) (State.initial T) :=
  ⟨rfl, rfl, rfl, rfl, rfl, rfl, fun _ => rfl, by simp [State.initial], by simp [State.initial],
    fun h => absurd rfl h, by simp, by simp, by simp⟩

theorem initial_plain (T : Target) : Plain (State.initial T) := ⟨rfl, fun _ => rfl⟩

/-- Whatever was in the map, after `mmap_clean` it is like the initial one. -/
theorem mmapClean_alike {T : Target} (h : Plain s) :
    AlikeOn ∅ (State.initial T) (mmapClean T s) where
  tree := rfl
  lastFreed := rfl
  allocNext := rfl
  allocatable := rfl
  table := h.table
  frees := rfl
  virtualStart := h.virtualStart
  linked := by simp [State.initial]
  null := by simp [State.initial]
  freed h := absurd rfl h
  entry := by simp
  left := by simp
  closed := by simp

end Plain

end Gandr.Mmap
