import Gandr.Mmap.Own
import Gandr.Mmap.Steps

/-! What a call ensures as long as no page is taken for nodes. A call that
takes one is out of the statement from then on, also where it runs out of fuel;
otherwise it has to end, in a panic or in a state with the stated property. -/

namespace Gandr.Mmap

/-- How many pages hold nodes. -/
def State.refills (s : State) : ℕ := s.nodePages.length

/-- The slots not yet issued and the pages that hold nodes. -/
def State.pool (s : State) : Ptr × ℕ × List ℕ := (s.allocNext, s.allocatable, s.nodePages)

section Refills

variable (s : State) (m n : Ptr)

@[simp] theorem pool_use : (s.use n).pool = s.pool := by
  unfold State.use
  split <;> rfl

@[simp] theorem pool_rbRemove : (rbRemove s n).pool = s.pool := by
  unfold rbRemove
  split <;> exact pool_use s n

@[simp] theorem pool_rbInsert : (rbInsert s n).2.pool = s.pool := by
  unfold rbInsert
  dsimp only
  split <;> rfl

@[simp] theorem pool_absorb : (absorb s m n).pool = s.pool :=
  pool_rbRemove (s.setEntry m (grown s m n)) n

@[simp] theorem pool_mergeAdjacent : (mergeAdjacent s n).pool = s.pool := by
  simp only [mergeAdjacent]
  split_ifs <;> simp

@[simp] theorem pool_sliceNew (t : MemoryType) (k : ℕ) : (sliceNew s m n t k).pool = s.pool := by
  simp only [sliceNew, pool_rbInsert]
  rfl

@[simp] theorem refills_setEntry (e : MemoryMapEntry) :
    (s.setEntry n e).refills = s.refills := rfl

@[simp] theorem refills_bumpKey : s.bumpKey.refills = s.refills := rfl

@[simp] theorem refills_mmapFreeEntry : (mmapFreeEntry s n).refills = s.refills := rfl

@[simp] theorem refills_use : (s.use n).refills = s.refills :=
  congrArg (fun p => p.2.2.length) (pool_use s n)

@[simp] theorem refills_rbRemove : (rbRemove s n).refills = s.refills :=
  congrArg (fun p => p.2.2.length) (pool_rbRemove s n)

@[simp] theorem refills_rbInsert : (rbInsert s n).2.refills = s.refills :=
  congrArg (fun p => p.2.2.length) (pool_rbInsert s n)

@[simp] theorem refills_mergeAdjacent : (mergeAdjacent s n).refills = s.refills :=
  congrArg (fun p => p.2.2.length) (pool_mergeAdjacent s n)

@[simp] theorem refills_slicePrev (k : ℕ) : (slicePrev s m n k).refills = s.refills := rfl

@[simp] theorem refills_sliceNext (k : ℕ) : (sliceNext s m n k).refills = s.refills := rfl

@[simp] theorem refills_sliceNew (t : MemoryType) (k : ℕ) :
    (sliceNew s m n t k).refills = s.refills :=
  congrArg (fun p => p.2.2.length) (pool_sliceNew s m n t k)

@[simp] theorem refills_takeNodePage (page k : ℕ) :
    (takeNodePage s page k).refills = s.refills + 1 := rfl

/-- The refill loop either takes one page or leaves the state as it was. -/
theorem refill_cases (T : Target) (l : List Ptr) :
    refill T s l = s ∨ (refill T s l).refills = s.refills + 1 := by
  induction l with
  | nil => exact .inl rfl
  | cons mme rest ih =>
    simp only [refill]
    split_ifs
    · exact .inl rfl
    · simp only [refillFrom]
      split_ifs
      · exact .inr (by simp)
      · exact .inr (by simp)
      · exact .inl rfl
      · exact .inr (by simp)
      · refine .inr ?_
        change (sliceNew _ _ _ _ _).refills = _
        simp
    · exact ih

theorem refills_mmapAllocEntry {T : Target} {s s' : State} {n : Ptr}
    (h : mmapAllocEntry T s = .ok (n, s')) :
    s'.refills = if s.lastFreed = 0 ∧ s.allocatable = 0 then s.refills + 1 else s.refills := by
  unfold mmapAllocEntry at h
  dsimp only at h
  split_ifs at h with h₁ h₂ h₃
  · cases h
    simp [h₁]
    rfl
  · cases h
    rcases refill_cases s T s.tree with hr | hr
    · rw [hr] at h₃
      exact absurd h₂ h₃
    · simp only [not_not] at h₁
      simp only [h₁, h₂, and_self, if_true]
      exact hr
  · cases h
    simp [h₂]
    rfl

end Refills

/-- A panic has to be one of those that `ok` accepts. -/
inductive EndsIn (ok : String → Prop) (s : State) (Q : State → Prop) : Outcome → Prop where
  | returned {u : State} (h : u.refills = s.refills → Q u) : EndsIn ok s Q (.returned u)
  | panicked {m : String} {u : State} (h : u.refills = s.refills → ok m) :
    EndsIn ok s Q (.panicked m u)
  | outOfFuel {u : State} (h : u.refills ≠ s.refills) : EndsIn ok s Q (.outOfFuel u)

/-- Any panic is accepted. -/
abbrev Ensures (s : State) (Q : State → Prop) (o : Outcome) : Prop := EndsIn (fun _ => True) s Q o

/-- The only panic accepted is that of a pool that has to be refilled and cannot. -/
abbrev Succeeds (s : State) (Q : State → Prop) (o : Outcome) : Prop :=
  EndsIn (fun m => m = "Out of memory") s Q o

/-- A call never gives a page back. -/
def Monotone (f : State → Outcome) : Prop := ∀ s, s.refills ≤ (f s).state.refills

namespace EndsIn

variable {ok : String → Prop} {s t : State} {Q R : State → Prop} {o : Outcome}

theorem mono (h : EndsIn ok s Q o) (hqr : ∀ t, Q t → R t) : EndsIn ok s R o := by
  cases h with
  | returned h => exact .returned fun ht => hqr _ (h ht)
  | panicked h => exact .panicked h
  | outOfFuel h => exact .outOfFuel h

theorem weaken {ok' : String → Prop} (h : EndsIn ok s Q o) (hok : ∀ m, ok m → ok' m) :
    EndsIn ok' s Q o := by
  cases h with
  | returned h => exact .returned h
  | panicked h => exact .panicked fun ht => hok _ (h ht)
  | outOfFuel h => exact .outOfFuel h

theorem congr (h : EndsIn ok t Q o) (hst : t.refills = s.refills) : EndsIn ok s Q o := by
  cases h with
  | returned h => exact .returned fun hu => h (hu.trans hst.symm)
  | panicked h => exact .panicked fun hu => h (hu.trans hst.symm)
  | outOfFuel h => exact .outOfFuel fun hu => h (hu.trans hst.symm)

theorem of_lt (h : s.refills < o.state.refills) : EndsIn ok s Q o := by
  cases o with
  | returned t => exact .returned fun ht => absurd ht h.ne'
  | panicked m t => exact .panicked fun ht => absurd ht h.ne'
  | outOfFuel t => exact .outOfFuel h.ne'

/-- The property holds of the state a call returned. -/
theorem and_returned (h : EndsIn ok s Q o) : EndsIn ok s (fun t => o = .returned t ∧ Q t) o := by
  cases h with
  | returned h => exact .returned fun ht => ⟨rfl, h ht⟩
  | panicked h => exact .panicked h
  | outOfFuel h => exact .outOfFuel h

theorem and {ok' : String → Prop} (h : EndsIn ok s Q o) (h' : EndsIn ok' s R o) :
    EndsIn ok s (fun t => Q t ∧ R t) o := by
  cases h with
  | returned h =>
    cases h' with
    | returned h' => exact .returned fun ht => ⟨h ht, h' ht⟩
  | panicked h => exact .panicked h
  | outOfFuel h => exact .outOfFuel h

theorem andThen {f : State → Outcome} (h : EndsIn ok s Q o) (ho : s.refills ≤ o.state.refills)
    (hf : Monotone f) (step : ∀ t, t.refills = s.refills → Q t → EndsIn ok t R (f t)) :
    EndsIn ok s R (o.andThen f) := by
  cases h with
  | panicked h => exact .panicked h
  | outOfFuel h => exact .outOfFuel h
  | @returned t h =>
    change EndsIn ok s R (f t)
    by_cases ht : t.refills = s.refills
    · exact (step t ht (h ht)).congr ht
    · exact .of_lt (lt_of_lt_of_le (lt_of_le_of_ne ho (Ne.symm ht)) (hf t))

end EndsIn

theorem Monotone.andThen {f g : State → Outcome} (hf : Monotone f) (hg : Monotone g) :
    Monotone fun s => (f s).andThen g := by
  intro s
  have hfs := hf s
  dsimp only
  cases hs : f s with
  | returned t =>
    rw [hs] at hfs
    exact hfs.trans (hg t)
  | panicked m t =>
    rw [hs] at hfs
    exact hfs
  | outOfFuel t =>
    rw [hs] at hfs
    exact hfs

theorem le_andThen {s : State} {o : Outcome} {f : State → Outcome}
    (ho : s.refills ≤ o.state.refills) (hf : Monotone f) :
    s.refills ≤ (o.andThen f).state.refills := by
  cases o with
  | returned t => exact le_trans ho (hf t)
  | panicked m t => exact ho
  | outOfFuel t => exact ho

section Bodies

variable {T : Target} {fix : Ptr → State → Outcome}

theorem refills_stepClosed :
    StepClosed (fun _ => True) fun s t => s.refills ≤ t.refills where
  zero := trivial
  refl s := le_rfl
  trans := le_trans
  setEntry s n e _ := le_rfl
  bumpKey s := le_rfl
  use s n := (refills_use s n).ge
  insert s n := (refills_rbInsert s n).ge
  remove s n := (refills_rbRemove s n).ge
  freeNode s n := le_rfl
  takePage s _ _ := Nat.le_succ s.refills
  pool s _ _ := le_rfl
  reuse s := le_rfl

theorem merge_monotone (n : Ptr) : Monotone fun s => .returned (mergeAdjacent s n) :=
  fun s => (refills_mergeAdjacent s n).ge

theorem placeOld_monotone (hfix : ∀ n, Monotone (fix n)) (e : MemoryMapEntry)
    (n m : Ptr) : Monotone (placeOld fix e n m) :=
  refills_stepClosed.placeOld hfix trivial n m

theorem placeNew_monotone (hfix : ∀ n, Monotone (fix n)) (n : Ptr) :
    Monotone (placeNew fix n) :=
  refills_stepClosed.placeNew hfix n

theorem insertEntry_monotone (hfix : ∀ n, Monotone (fix n)) (e : MemoryMapEntry) :
    Monotone (insertEntry T fix e) :=
  refills_stepClosed.insertEntry hfix trivial

theorem addEntry_monotone (T : Target) (fuel : ℕ) :
    (∀ n, Monotone (fixOverlap T fuel n)) ∧ ∀ e, Monotone (mmapAddEntry T fuel e) :=
  ⟨(refills_stepClosed.addEntry T fuel).1,
    fun e => (refills_stepClosed.addEntry T fuel).2 e trivial⟩

end Bodies

end Gandr.Mmap
