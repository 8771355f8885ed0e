import Mathlib.Logic.Basic

/-! Computations that may fail, by what they give and by how they may fail. -/

namespace Gandr

variable {ε α β : Type} {E E' : ε → Prop} {P Q : α → Prop} {S : β → Prop} {x : Except ε α}
  {f : α → Except ε β}

/-- The value satisfies `P`, or the error satisfies `E`. -/
def Gives (E : ε → Prop) (P : α → Prop) : Except ε α → Prop
  | .ok a => P a
  | .error e => E e

namespace Gives

theorem imp (hx : Gives E P x) (hE : ∀ e, E e → E' e) (hP : ∀ a, P a → Q a) : Gives E' Q x := by
  cases x with
  | error e => exact hE e hx
  | ok a => exact hP a hx

theorem bind (hx : Gives E P x) (hf : ∀ a, P a → Gives E S (f a)) : Gives E S (x >>= f) := by
  cases x with
  | error e => exact hx
  | ok a => exact hf a hx

/-- Without a way to fail there is a value. -/
theorem exists_ok (hx : Gives (fun _ => False) P x) : ∃ a, x = .ok a ∧ P a := by
  cases x with
  | error e => exact hx.elim
  | ok a => exact ⟨a, rfl, hx⟩

/-- Without a value there is an error. -/
theorem exists_error (hx : Gives E (fun _ => False) x) : ∃ e, x = .error e ∧ E e := by
  cases x with
  | error e => exact ⟨e, rfl, hx⟩
  | ok a => exact hx.elim

end Gives

end Gandr
