import Mathlib.Logic.Basic

/-! Programs that make requests of their environment. A request `q` is answered
by a value of `R q`; what the answer is may depend on all requests before it. A
program whose loop does not end within the rounds it is given is stuck. -/

namespace Gandr

inductive Program {Q : Type} (R : Q → Type) (α : Type) where
  | done (a : α)
  | ask (q : Q) (k : R q → Program R α)
  | stuck

/-- Answers to a request, given the requests made before it. -/
abbrev Environment {Q : Type} (R : Q → Type) := List Q → (q : Q) → R q

namespace Program

variable {Q : Type} {R : Q → Type} {α β : Type}

def bind : Program R α → (α → Program R β) → Program R β
  | done a, f => f a
  | ask q k, f => ask q fun r => bind (k r) f
  | stuck, _ => stuck

instance : Monad (Program R) where
  pure := done
  bind := bind

/-- The value of a run and its requests in order, if it ends. -/
def run (env : Environment R) : List Q → Program R α → Option (α × List Q)
  | _, done a => some (a, [])
  | h, ask q k => (run env (h ++ [q]) (k (env h q))).map fun r => (r.1, q :: r.2)
  | _, stuck => none

variable {env : Environment R} {h : List Q}

@[simp] theorem run_pure (a : α) : run env h (pure a : Program R α) = some (a, []) := rfl

@[simp] theorem run_stuck : run env h (stuck : Program R α) = none := rfl

/-- The second program runs after the requests of the first. -/
theorem run_bind (p : Program R α) (f : α → Program R β) :
    run env h (p >>= f) = (run env h p).bind fun r =>
      (run env (h ++ r.2) (f r.1)).map fun r' => (r'.1, r.2 ++ r'.2) := by
  change run env h (bind p f) = _
  induction p generalizing h with
  | done a => simp [bind, run]
  | ask q k ih =>
    simp only [bind, run, ih, Option.map_bind, Option.bind_map]
    congr 1
    funext r
    simp [Function.comp_def, List.append_assoc]
  | stuck => rfl

theorem bind_bind {γ : Type} (p : Program R α) (f : α → Program R β) (g : β → Program R γ) :
    p >>= f >>= g = p >>= fun a => f a >>= g := by
  change Program.bind (Program.bind p f) g = Program.bind p fun a => Program.bind (f a) g
  induction p with
  | done a => rfl
  | ask q k ih => exact congrArg (ask q) (funext ih)
  | stuck => rfl

/-- Every request the program may make satisfies `P`. -/
def Asks (P : Q → Prop) : Program R α → Prop
  | done _ => True
  | ask q k => P q ∧ ∀ r, Asks P (k r)
  | stuck => True

theorem Asks.bind {P : Q → Prop} {p : Program R α} {f : α → Program R β} (hp : Asks P p)
    (hf : ∀ a, Asks P (f a)) : Asks P (p >>= f) := by
  change Asks P (Program.bind p f)
  induction p with
  | done a => exact hf a
  | ask q k ih => exact ⟨hp.1, fun r => ih r (hp.2 r)⟩
  | stuck => trivial

theorem Asks.run {P : Q → Prop} {p : Program R α} (hp : Asks P p) {h : List Q} {a : α} {qs : List Q}
    (hrun : p.run env h = some (a, qs)) : ∀ q ∈ qs, P q := by
  induction p generalizing h qs with
  | done b =>
    cases hrun
    simp
  | ask q k ih =>
    rw [Program.run, Option.map_eq_some_iff] at hrun
    obtain ⟨r, hrest, heq⟩ := hrun
    cases heq
    exact List.forall_mem_cons.mpr ⟨hp.1, ih _ (hp.2 _) hrest⟩
  | stuck => cases hrun

/-- If the program ends, `P` holds of its value and of all requests made until then. -/
def Yields (env : Environment R) (P : α → List Q → Prop) (h : List Q) (p : Program R α) : Prop :=
  ∀ a qs, p.run env h = some (a, qs) → P a (h ++ qs)

theorem Yields.pure {P : α → List Q → Prop} {a : α} (hp : P a h) :
    Yields env P h (pure a : Program R α) := by
  intro b qs hrun
  cases hrun
  rwa [List.append_nil]

theorem Yields.ask {P : α → List Q → Prop} {q : Q} {k : R q → Program R α}
    (hk : Yields env P (h ++ [q]) (k (env h q))) : Yields env P h (.ask q k) := by
  intro a qs hrun
  rw [Program.run, Option.map_eq_some_iff] at hrun
  obtain ⟨r, hrest, heq⟩ := hrun
  cases heq
  have := hk r.1 r.2 hrest
  rwa [List.append_assoc] at this

theorem Yields.bind {P : α → List Q → Prop} {S : β → List Q → Prop} {p : Program R α}
    {f : α → Program R β} (hp : Yields env P h p)
    (hf : ∀ a h', P a h' → Yields env S h' (f a)) : Yields env S h (p >>= f) := by
  intro b qs hrun
  rw [run_bind, Option.bind_eq_some_iff] at hrun
  obtain ⟨r, hfirst, hrest⟩ := hrun
  rw [Option.map_eq_some_iff] at hrest
  obtain ⟨r', hsecond, heq⟩ := hrest
  cases heq
  have := hf r.1 _ (hp r.1 r.2 hfirst) r'.1 r'.2 hsecond
  rwa [List.append_assoc] at this

/-- The program ends with a value in `A`, and every request satisfies `P`. -/
def Ends (P : Q → Prop) (A : α → Prop) : Program R α → Prop
  | done a => A a
  | ask q k => P q ∧ ∀ r, Ends P A (k r)
  | stuck => False

theorem Ends.bind {P : Q → Prop} {A : α → Prop} {B : β → Prop} {p : Program R α}
    {f : α → Program R β} (hp : Ends P A p) (hf : ∀ a, A a → Ends P B (f a)) :
    Ends P B (p >>= f) := by
  change Ends P B (Program.bind p f)
  induction p with
  | done a => exact hf a hp
  | ask q k ih => exact ⟨hp.1, fun r => ih r (hp.2 r)⟩
  | stuck => exact hp

theorem Ends.run {P : Q → Prop} {A : α → Prop} {p : Program R α} (hp : Ends P A p)
    (env : Environment R) (h : List Q) : ∃ a qs, p.run env h = some (a, qs) ∧ A a ∧ ∀ q ∈ qs, P q := by
  induction p generalizing h with
  | done a => exact ⟨a, [], rfl, hp, by simp⟩
  | ask q k ih =>
    obtain ⟨a, qs, hrun, ha, hqs⟩ := ih (env h q) (hp.2 _) (h ++ [q])
    refine ⟨a, q :: qs, ?_, ha, List.forall_mem_cons.mpr ⟨hp.1, hqs⟩⟩
    rw [Program.run, hrun]
    rfl
  | stuck => exact hp.elim

/-- With enough rounds a family of programs ends with the value `a` after the requests
`qs`. -/
def Settles (env : Environment R) (h : List Q) (p : Nat → Program R α) (a : α) (qs : List Q) : Prop :=
  ∃ n, ∀ rounds ≥ n, (p rounds).run env h = some (a, qs)

theorem Settles.pure (a : α) : Settles env h (fun _ => (pure a : Program R α)) a [] :=
  ⟨0, fun _ _ => rfl⟩

theorem Settles.ask (q : Q) : Settles env h (fun _ => Program.ask q Program.done) (env h q) [q] :=
  ⟨0, fun _ _ => rfl⟩

theorem Settles.bind {p : Nat → Program R α} {f : Nat → α → Program R β} {a : α} {b : β}
    {qs qs' : List Q} (hp : Settles env h p a qs)
    (hf : Settles env (h ++ qs) (fun n => f n a) b qs') :
    Settles env h (fun n => p n >>= f n) b (qs ++ qs') := by
  obtain ⟨n₁, h₁⟩ := hp
  obtain ⟨n₂, h₂⟩ := hf
  refine ⟨max n₁ n₂, fun rounds hn => ?_⟩
  rw [run_bind, h₁ rounds (Nat.le_trans (Nat.le_max_left n₁ n₂) hn), Option.bind_some,
    h₂ rounds (Nat.le_trans (Nat.le_max_right n₁ n₂) hn)]
  rfl

end Program

end Gandr
