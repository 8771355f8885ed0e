import Mathlib.Tactic

/-! Lists of ranked half-open intervals. At a point the strongest interval that
contains it counts, that is the one of least rank; `top` stands for no interval.
The value is defined for overlapping lists too, so that a rearrangement of
intervals can be compared with the list it came from at every stage. -/

namespace Gandr.Cover

variable {α : Type*}

/-- How an item is read as a ranked interval. -/
structure View (α : Type*) where
  lo : α → ℕ
  hi : α → ℕ
  rank : α → ℕ
  top : ℕ

namespace View

variable (v : View α)

def Contains (a : α) (x : ℕ) : Prop := v.lo a ≤ x ∧ x < v.hi a

instance (a : α) (x : ℕ) : Decidable (v.Contains a x) :=
  inferInstanceAs (Decidable (_ ∧ _))

/-- The rank one item gives to a point. -/
def valueAt (a : α) (x : ℕ) : ℕ := if v.Contains a x then v.rank a else v.top

theorem valueAt_le_top {a : α} (h : v.rank a ≤ v.top) (x : ℕ) : v.valueAt a x ≤ v.top := by
  unfold valueAt
  split_ifs
  · exact h
  · exact le_rfl

def bestAt (l : List α) (x : ℕ) : ℕ := l.foldr (fun a acc => min (v.valueAt a x) acc) v.top

@[simp] theorem bestAt_nil (x : ℕ) : v.bestAt [] x = v.top := rfl

@[simp] theorem bestAt_cons (a : α) (l : List α) (x : ℕ) :
    v.bestAt (a :: l) x = min (v.valueAt a x) (v.bestAt l x) := rfl

theorem bestAt_le_top (l : List α) (x : ℕ) : v.bestAt l x ≤ v.top := by
  induction l with
  | nil => simp
  | cons a l ih => simp [ih]

@[simp] theorem bestAt_append (l₁ l₂ : List α) (x : ℕ) :
    v.bestAt (l₁ ++ l₂) x = min (v.bestAt l₁ x) (v.bestAt l₂ x) := by
  induction l₁ with
  | nil => simp [bestAt_le_top]
  | cons a l ih => simp [ih, min_assoc]

theorem le_bestAt_iff {l : List α} {x r : ℕ} (hr : r ≤ v.top) :
    r ≤ v.bestAt l x ↔ ∀ a ∈ l, v.Contains a x → r ≤ v.rank a := by
  induction l with
  | nil => simpa using hr
  | cons a l ih =>
    have ha : r ≤ v.valueAt a x ↔ (v.Contains a x → r ≤ v.rank a) := by
      unfold valueAt
      split_ifs with h <;> simp [h, hr]
    simp only [bestAt_cons, le_min_iff, ih, ha, List.forall_mem_cons]

theorem bestAt_le {l : List α} {a : α} {x : ℕ} (ha : a ∈ l) (hx : v.Contains a x) :
    v.bestAt l x ≤ v.rank a :=
  (v.le_bestAt_iff (v.bestAt_le_top l x)).mp le_rfl a ha hx

end View

end Gandr.Cover
