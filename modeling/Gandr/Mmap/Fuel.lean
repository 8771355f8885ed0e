import Gandr.Mmap.Ensures

/-! Fuel only bounds the depth of the recursion: a call that ends with some fuel
ends in the same way with more of it. -/

namespace Gandr.Mmap

/-- `o` is `o'`, or it ran out of fuel on the way there. -/
def Outcome.UpTo (o o' : Outcome) : Prop :=
  o = o' ∨ ∃ u, o = .outOfFuel u ∧ u.refills ≤ o'.state.refills

namespace Outcome.UpTo

variable {o o' : Outcome} {f f' : State → Outcome}

theorem refl (o : Outcome) : o.UpTo o := .inl rfl

theorem andThen (h : o.UpTo o') (hf : ∀ s, (f s).UpTo (f' s)) (hmono : Monotone f') :
    (o.andThen f).UpTo (o'.andThen f') := by
  rcases h with rfl | ⟨u, rfl, hu⟩
  · cases o with
    | returned s => exact hf s
    | panicked m s => exact .refl _
    | outOfFuel s => exact .refl _
  · exact .inr ⟨u, rfl, hu.trans (le_andThen le_rfl hmono)⟩

/-- What a call ensures with less fuel it ensures with more. -/
theorem endsIn {ok : String → Prop} {s : State} {Q : State → Prop} (h : o.UpTo o')
    (hmono : s.refills ≤ o.state.refills) (ho : EndsIn ok s Q o) : EndsIn ok s Q o' := by
  rcases h with rfl | ⟨u, rfl, hu⟩
  · exact ho
  · cases ho with
    | outOfFuel hne => exact .of_lt (lt_of_lt_of_le (lt_of_le_of_ne hmono hne.symm) hu)

end Outcome.UpTo

section Bodies

variable {T : Target} {fix fix' : Ptr → State → Outcome} {add add' : MemoryMapEntry → State → Outcome}

theorem fixOverlapBody_upTo (hfix : ∀ n s, (fix n s).UpTo (fix' n s))
    (hadd : ∀ e s, (add e s).UpTo (add' e s)) (first : Ptr) (s : State) :
    (fixOverlapBody fix add first s).UpTo (fixOverlapBody fix' add' first s) := by
  simp only [fixOverlapBody]
  split_ifs
  · exact .refl _
  · exact .refl _
  · exact .refl _
  · exact .refl _
  · exact .refl _
  · exact hadd _ _
  · exact hfix _ _
  · exact hadd _ _
  · exact .refl _

theorem placeOld_upTo (hfix : ∀ n s, (fix n s).UpTo (fix' n s)) (e : MemoryMapEntry) (n m : Ptr)
    (s : State) : (placeOld fix e n m s).UpTo (placeOld fix' e n m s) := by
  simp only [placeOld]
  split_ifs
  · exact .refl _
  · exact .refl _
  · simp only [reinsert]
    split_ifs
    · exact .refl _
    · exact (hfix _ _).andThen (fun t => .refl _) (merge_monotone n)

theorem placeNew_upTo (hfix : ∀ n s, (fix n s).UpTo (fix' n s)) (hmono : ∀ n, Monotone (fix' n))
    (n : Ptr) (s : State) : (placeNew fix n s).UpTo (placeNew fix' n s) := by
  refine (hfix n s).andThen (fun t => ?_) fun t => le_andThen (hmono _ t) (merge_monotone n)
  exact (hfix _ t).andThen (fun u => .refl _) (merge_monotone n)

theorem insertEntry_upTo (hfix : ∀ n s, (fix n s).UpTo (fix' n s))
    (hmono : ∀ n, Monotone (fix' n)) (e : MemoryMapEntry) (s : State) :
    (insertEntry T fix e s).UpTo (insertEntry T fix' e s) := by
  unfold insertEntry
  cases mmapAllocEntry T s with
  | error m => exact .refl _
  | ok res =>
    dsimp only
    refine Outcome.UpTo.andThen ?_ (fun t => .refl _) fun t => le_rfl
    split_ifs
    · exact placeOld_upTo hfix _ _ _ _
    · exact placeNew_upTo hfix hmono _ _

theorem mmapAddEntryBody_upTo (hfix : ∀ n s, (fix n s).UpTo (fix' n s))
    (hadd : ∀ e s, (add e s).UpTo (add' e s)) (hmono : ∀ n, Monotone (fix' n))
    (hmono' : ∀ e, Monotone (add' e)) (e : MemoryMapEntry) (s : State) :
    (mmapAddEntryBody T fix add e s).UpTo (mmapAddEntryBody T fix' add' e s) := by
  have hif : ∀ (c : Prop) [Decidable c] e s, (if c then .returned s else add e s : Outcome).UpTo
      (if c then .returned s else add' e s) := by
    intro c _ e s
    split_ifs
    · exact .refl _
    · exact hadd e s
  unfold mmapAddEntryBody
  by_cases h₀ : e.size = 0
  · simp only [if_pos h₀]
    exact .refl _
  simp only [if_neg h₀]
  refine (hif _ _ s).andThen (fun t => ?_) (fun t => ?_)
  · cases trimFront e with
    | none => exact .refl _
    | some e' =>
      refine (hif _ _ t).andThen (fun u => ?_) (fun u => ?_)
      · cases trimBack e' with
        | none => exact .refl _
        | some e'' => exact insertEntry_upTo hfix hmono e'' u
      · cases trimBack e' with
        | none => exact le_rfl
        | some e'' => exact insertEntry_monotone hmono e'' u
  · cases trimFront e with
    | none => exact le_rfl
    | some e' =>
      refine le_andThen ?_ (fun u => ?_)
      · split_ifs
        · exact le_rfl
        · exact hmono' _ t
      · cases trimBack e' with
        | none => exact le_rfl
        | some e'' => exact insertEntry_monotone hmono e'' u

theorem fuel_upTo (T : Target) (fuel : ℕ) :
    (∀ n s, (fixOverlap T fuel n s).UpTo (fixOverlap T (fuel + 1) n s)) ∧
      ∀ e s, (mmapAddEntry T fuel e s).UpTo (mmapAddEntry T (fuel + 1) e s) := by
  induction fuel with
  | zero =>
    have hmono := addEntry_monotone T 1
    exact ⟨fun n s => .inr ⟨s, rfl, hmono.1 n s⟩, fun e s => .inr ⟨s, rfl, hmono.2 e s⟩⟩
  | succ fuel ih =>
    have hmono := addEntry_monotone T (fuel + 1)
    constructor
    · intro n s
      exact fixOverlapBody_upTo ih.1 ih.2 n s
    · intro e s
      exact mmapAddEntryBody_upTo ih.1 ih.2 hmono.1 hmono.2 e s

end Bodies

end Gandr.Mmap
