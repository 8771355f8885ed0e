import Gandr.Mmap.Model

/-! What every elementary step of the map keeps, every call keeps. A relation
between the state before and the state after has to be checked for the
elementary steps only; the mutual recursion is gone through once, here. -/

namespace Gandr.Mmap

/-- What is written to a node has the virtual start of some node, or one that
`V` admits. -/
def Written (V : ℕ → Prop) (s : State) (e : MemoryMapEntry) : Prop :=
  V e.virtualStart ∨ ∃ m, e.virtualStart = (s.entry m).virtualStart

/-- A preorder on states that the elementary steps respect, for entries whose
virtual start `V` admits. -/
structure StepClosed (V : ℕ → Prop) (R : State → State → Prop) : Prop where
  zero : V 0
  refl (s : State) : R s s
  trans {s t u : State} : R s t → R t u → R s u
  setEntry (s : State) (n : Ptr) (e : MemoryMapEntry) : Written V s e → R s (s.setEntry n e)
  bumpKey (s : State) : R s s.bumpKey
  use (s : State) (n : Ptr) : R s (s.use n)
  insert (s : State) (n : Ptr) : R s (rbInsert s n).2
  remove (s : State) (n : Ptr) : R s (rbRemove s n)
  freeNode (s : State) (n : Ptr) : R s (mmapFreeEntry s n)
  takePage (s : State) (page slots : ℕ) : R s (takeNodePage s page slots)
  pool (s : State) (a k : ℕ) : R s { s with allocNext := a, allocatable := k }
  reuse (s : State) : R s { s with lastFreed := s.rbeLeft s.lastFreed }

namespace StepClosed

variable {T : Target} {V : ℕ → Prop} {R : State → State → Prop} {fix : Ptr → State → Outcome}
  {add : MemoryMapEntry → State → Outcome}

theorem rewrite (h : StepClosed V R) {s : State} {n : Ptr} {e : MemoryMapEntry}
    (he : e.virtualStart = (s.entry n).virtualStart) : R s (s.setEntry n e) :=
  h.setEntry s n e (.inr ⟨n, he⟩)

/-- A node is rewritten from what it held before another was. -/
theorem rewriteAfter (h : StepClosed V R) {s : State} {n m : Ptr} {e e' : MemoryMapEntry}
    (he : Written V s e) (he' : e'.virtualStart = (s.entry m).virtualStart) :
    R s ((s.setEntry n e).setEntry m e') := by
  by_cases hmn : m = n
  · subst hmn
    rw [State.setEntry, State.setEntry, Function.update_idem]
    exact h.rewrite he'
  · refine h.trans (h.setEntry s n e he) (h.rewrite ?_)
    simpa [State.setEntry, hmn] using he'

theorem andThen (h : StepClosed V R) {s : State} {o : Outcome} {f : State → Outcome}
    (ho : R s o.state) (hf : ∀ t, R t (f t).state) : R s (o.andThen f).state := by
  cases o with
  | returned t => exact h.trans ho (hf t)
  | panicked m t => exact ho
  | outOfFuel t => exact ho

theorem absorb (h : StepClosed V R) (s : State) (kept gone : Ptr) :
    R s (absorb s kept gone) :=
  h.trans (h.rewrite (by rfl)) <|
    h.trans (h.remove _ gone) <| h.trans (h.freeNode _ gone) (h.bumpKey _)

theorem mergeAdjacent (h : StepClosed V R) (s : State) (n : Ptr) : R s (mergeAdjacent s n) := by
  have huse := h.trans (h.use s n) (h.use _ n)
  simp only [Mmap.mergeAdjacent]
  split_ifs
  · exact h.trans huse (h.trans (h.absorb _ _ _) (h.absorb _ _ _))
  · exact h.trans huse (h.absorb _ _ _)
  · exact h.trans huse (h.absorb _ _ _)
  · exact huse

theorem slicePrev (h : StepClosed V R) (s : State) (mme neighbour : Ptr) (k : ℕ) :
    R s (slicePrev s mme neighbour k) :=
  h.trans (h.rewrite (by rfl)) (h.rewrite (by rfl))

theorem sliceNext (h : StepClosed V R) (s : State) (mme neighbour : Ptr) (k : ℕ) :
    R s (sliceNext s mme neighbour k) :=
  h.trans (h.rewrite (by rfl)) (h.rewrite (by rfl))

theorem sliceNew (h : StepClosed V R) (s : State) (mme new : Ptr) (type : MemoryType) (k : ℕ) :
    R s (sliceNew s mme new type k) :=
  h.trans (h.rewrite (by rfl)) (h.trans (h.rewrite (by rfl)) (h.insert _ _))

theorem refillFrom (h : StepClosed V R) (s : State) (mme : Ptr) : R s (refillFrom T s mme) := by
  simp only [Mmap.refillFrom]
  split_ifs
  · refine h.trans (h.takePage s _ _) (h.trans (h.rewrite ?_)
      (h.trans (h.mergeAdjacent _ _) (h.bumpKey _)))
    rfl
  · exact h.trans (h.takePage s _ _) (h.trans (h.slicePrev _ _ _ _) (h.bumpKey _))
  · exact h.refl s
  · exact h.trans (h.sliceNext s _ _ _) (h.trans (h.takePage _ _ _) (h.bumpKey _))
  · exact h.trans (h.takePage s _ _) (h.trans (h.sliceNew _ _ _ _ _)
      (h.trans (h.pool _ _ _) (h.bumpKey _)))

theorem refill (h : StepClosed V R) (s : State) (l : List Ptr) : R s (refill T s l) := by
  induction l with
  | nil => exact h.refl s
  | cons mme rest ih =>
    simp only [Mmap.refill]
    split_ifs
    · exact h.refl s
    · exact h.refillFrom s mme
    · exact ih

theorem allocNode (h : StepClosed V R) {s t : State} {n : Ptr}
    (halloc : mmapAllocEntry T s = .ok (n, t)) : R s t := by
  unfold mmapAllocEntry at halloc
  dsimp only at halloc
  split_ifs at halloc
  · cases halloc
    exact h.reuse s
  · cases halloc
    exact h.trans (h.refill s s.tree) (h.pool _ _ _)
  · cases halloc
    exact h.pool s _ _

theorem splitOverlap (h : StepClosed V R) (hadd : ∀ e, V e.virtualStart → ∀ s, R s (add e s).state) (s : State)
    (first second : Ptr) (type : MemoryType) {e : MemoryMapEntry} (he : V e.virtualStart) :
    R s (splitOverlap add s first second type e).state :=
  h.trans (h.rewriteAfter (.inr ⟨second, by rfl⟩) (by rfl)) (hadd e he _)

theorem fixOverlapBody (h : StepClosed V R) (hfix : ∀ n s, R s (fix n s).state)
    (hadd : ∀ e, V e.virtualStart → ∀ s, R s (add e s).state) (first : Ptr) (s : State) :
    R s (fixOverlapBody fix add first s).state := by
  have huse := h.use s first
  simp only [Mmap.fixOverlapBody]
  split_ifs
  · exact h.refl s
  · exact huse
  · exact huse
  · exact h.trans huse (h.rewrite (by rfl))
  · exact h.trans huse (h.rewrite (by rfl))
  · exact h.trans huse (h.splitOverlap hadd _ _ _ _ h.zero)
  · exact h.trans huse (h.trans (h.remove _ _) (h.trans (h.freeNode _ _) (hfix _ _)))
  · exact h.trans huse (h.splitOverlap hadd _ _ _ _ h.zero)
  · exact h.trans huse (h.rewriteAfter (.inr ⟨_, by rfl⟩) (by rfl))

theorem reinsert (h : StepClosed V R) {k : State → Outcome} (hk : ∀ s, R s (k s).state)
    (n : Ptr) (s : State) : R s (reinsert n s k).state := by
  simp only [Mmap.reinsert]
  split_ifs
  · exact h.insert s n
  · exact h.trans (h.insert s n) (hk _)

theorem placeOld (h : StepClosed V R) (hfix : ∀ n s, R s (fix n s).state)
    {e : MemoryMapEntry} (he : V e.virtualStart) (n m : Ptr) (s : State) : R s (placeOld fix e n m s).state := by
  have hmerge : ∀ t, R t (Outcome.returned (Mmap.mergeAdjacent t n)).state :=
    fun t => h.mergeAdjacent t n
  simp only [Mmap.placeOld]
  split_ifs
  · refine h.trans (h.rewrite ?_) (h.trans (h.freeNode _ _) (h.mergeAdjacent _ _))
    rfl
  · refine h.trans (h.rewriteAfter ?_ ?_) (h.reinsert hmerge _ _)
    · exact .inl he
    · rfl
  · refine h.trans (h.rewrite ?_) (h.trans (h.setEntry _ _ _ ?_) (h.reinsert ?_ _ _))
    · rfl
    · exact .inl he
    · exact fun t => h.andThen (hfix n t) hmerge

theorem placeNew (h : StepClosed V R) (hfix : ∀ n s, R s (fix n s).state) (n : Ptr) (s : State) :
    R s (placeNew fix n s).state := by
  refine h.andThen (hfix n s) fun t => h.andThen (hfix _ t) ?_
  exact fun u => h.mergeAdjacent u n

/-- `mmap_add_entry` from the issued node on, before the key is bumped. -/
theorem place (h : StepClosed V R) (hfix : ∀ n s, R s (fix n s).state) {e : MemoryMapEntry}
    (he : V e.virtualStart) {n : Ptr} {s t : State} (halloc : mmapAllocEntry T s = .ok (n, t)) :
    R s (if (rbInsert (t.setEntry n e) n).1 ≠ 0
      then Mmap.placeOld fix e n (rbInsert (t.setEntry n e) n).1 (rbInsert (t.setEntry n e) n).2
      else Mmap.placeNew fix n (rbInsert (t.setEntry n e) n).2).state := by
  have hlink : R s (rbInsert (t.setEntry n e) n).2 :=
    h.trans (h.allocNode halloc) (h.trans (h.setEntry t n e (.inl he)) (h.insert _ n))
  split_ifs
  · exact h.trans hlink (h.placeOld hfix he _ _ _)
  · exact h.trans hlink (h.placeNew hfix _ _)

theorem insertEntry (h : StepClosed V R) (hfix : ∀ n s, R s (fix n s).state)
    {e : MemoryMapEntry} (he : V e.virtualStart) (s : State) : R s (insertEntry T fix e s).state := by
  unfold Mmap.insertEntry
  split
  · exact h.refl s
  · next n t halloc => exact h.andThen (h.place hfix he halloc) fun u => h.bumpKey u

theorem trimFront_virtualStart {e e' : MemoryMapEntry} (h : trimFront e = some e') :
    e'.virtualStart = e.virtualStart := by
  unfold trimFront at h
  dsimp only at h
  split_ifs at h <;> cases h <;> rfl

theorem trimBack_virtualStart {e e' : MemoryMapEntry} (h : trimBack e = some e') :
    e'.virtualStart = e.virtualStart := by
  unfold trimBack at h
  split_ifs at h <;> cases h <;> rfl

theorem mmapAddEntryBody (h : StepClosed V R) (hfix : ∀ n s, R s (fix n s).state)
    (hadd : ∀ e, V e.virtualStart → ∀ s, R s (add e s).state) {e : MemoryMapEntry}
    (he : V e.virtualStart) (s : State) : R s (mmapAddEntryBody T fix add e s).state := by
  have hif : ∀ (c : Prop) [Decidable c] a s,
      R s (if c then Outcome.returned s else add (unusablePage a) s).state := by
    intro c _ a s
    split_ifs
    · exact h.refl s
    · exact hadd _ h.zero s
  unfold Mmap.mmapAddEntryBody
  by_cases h₀ : e.size = 0
  · rw [if_pos h₀]
    exact h.refl s
  rw [if_neg h₀]
  refine h.andThen (hif _ _ s) fun t => ?_
  cases hf : trimFront e with
  | none => exact h.refl t
  | some e' =>
    refine h.andThen (hif _ _ t) fun u => ?_
    cases hb : trimBack e' with
    | none => exact h.refl u
    | some e'' =>
      refine h.insertEntry hfix ?_ u
      rwa [trimBack_virtualStart hb, trimFront_virtualStart hf]

/-- Both recursive functions, whatever their depth. -/
theorem addEntry (h : StepClosed V R) (T : Target) (fuel : ℕ) :
    (∀ n s, R s (fixOverlap T fuel n s).state) ∧
      ∀ e, V e.virtualStart → ∀ s, R s (mmapAddEntry T fuel e s).state := by
  induction fuel with
  | zero => exact ⟨fun n s => h.refl s, fun e _ s => h.refl s⟩
  | succ fuel ih =>
    constructor
    · intro n s
      rw [fixOverlap]
      exact h.fixOverlapBody ih.1 ih.2 n s
    · intro e he s
      rw [mmapAddEntry]
      exact h.mmapAddEntryBody ih.1 ih.2 he s

end StepClosed

end Gandr.Mmap
