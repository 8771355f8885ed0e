import Mathlib.Tactic

/-! Runs of a partial step function: the actions of a list one after the other. -/

namespace Gandr

section Runs

variable {σ α : Type} {step : σ → α → Option σ}

/-- What every step keeps, every run keeps. -/
theorem foldlM_invariant {P : σ → Prop}
    (hstep : ∀ s a s', step s a = some s' → P s → P s') {actions : List α} {s s' : σ}
    (hrun : actions.foldlM step s = some s') (hs : P s) : P s' := by
  induction actions generalizing s with
  | nil =>
    obtain rfl : s = s' := Option.some.inj hrun
    exact hs
  | cons a rest ih =>
    rw [List.foldlM_cons] at hrun
    obtain ⟨s₁, hfirst, hrest⟩ := Option.bind_eq_some_iff.mp hrun
    exact ih hrest (hstep s a s₁ hfirst hs)

/-- A goal is reached by actions of a kind if short of it one of them lowers the
measure. -/
theorem exists_foldlM_of_measure {P G : σ → Prop} {A : α → Prop} (μ : σ → ℕ)
    (hstep : ∀ s, P s → ¬ G s → ∃ a s', A a ∧ step s a = some s' ∧ P s' ∧ μ s' < μ s) {s : σ}
    (hs : P s) :
    ∃ (actions : List α) (s' : σ), (∀ a ∈ actions, A a) ∧ actions.foldlM step s = some s' ∧ P s' ∧
      G s' := by
  induction hn : μ s using Nat.strong_induction_on generalizing s with
  | _ n ih =>
    by_cases hgoal : G s
    · exact ⟨[], s, by simp, rfl, hs, hgoal⟩
    · obtain ⟨a, s₁, ha, hfirst, hs₁, hless⟩ := hstep s hs hgoal
      obtain ⟨rest, s', hrest, hrun, hs', hgoal'⟩ := ih (μ s₁) (hn ▸ hless) hs₁ rfl
      refine ⟨a :: rest, s', ?_, ?_, hs', hgoal'⟩
      · intro b hb
        rcases List.mem_cons.mp hb with rfl | hb
        · exact ha
        · exact hrest b hb
      · rw [List.foldlM_cons, hfirst]
        exact hrun

end Runs

section Traces

variable {σ τ α ω : Type} {step : σ → α → Option (ω × σ)} {spec : τ → α → ω × τ}
  {ok : τ → α → Prop} {R : σ → τ → Prop}

/-- What the actions of a list answer, and the state they lead to. -/
def trace (spec : τ → α → ω × τ) : τ → List α → List ω × τ
  | t, [] => ([], t)
  | t, a :: rest =>
    let r := trace spec (spec t a).2 rest
    ((spec t a).1 :: r.1, r.2)

def traceM (step : σ → α → Option (ω × σ)) : σ → List α → Option (List ω × σ)
  | s, [] => some ([], s)
  | s, a :: rest => do
    let (w, s) ← step s a
    let (ws, s) ← traceM step s rest
    some (w :: ws, s)

/-- Each action of a list is as `ok` asks, in the state it is taken in. -/
def Along (spec : τ → α → ω × τ) (ok : τ → α → Prop) : τ → List α → Prop
  | _, [] => True
  | t, a :: rest => ok t a ∧ Along spec ok (spec t a).2 rest

/-- Partial steps that simulate a specification answer as it does in every run. -/
theorem traceM_simulates
    (hstep : ∀ s t a, R s t → ok t a → ∃ s', step s a = some ((spec t a).1, s') ∧ R s' (spec t a).2)
    {actions : List α} {s : σ} {t : τ} (h : R s t) (hok : Along spec ok t actions) :
    ∃ s', traceM step s actions = some ((trace spec t actions).1, s') ∧
      R s' (trace spec t actions).2 := by
  induction actions generalizing s t with
  | nil => exact ⟨s, rfl, h⟩
  | cons a rest ih =>
    obtain ⟨s₁, hfirst, h₁⟩ := hstep s t a h hok.1
    obtain ⟨s₂, hrest, h₂⟩ := ih h₁ hok.2
    refine ⟨s₂, ?_, h₂⟩
    rw [traceM, hfirst]
    simp only [Option.bind_eq_bind, Option.bind_some, hrest, trace]

end Traces

end Gandr
