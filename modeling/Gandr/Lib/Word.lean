import Mathlib.Tactic

/-! Unsigned machine words as natural numbers. Every operation reduces modulo
`2^w`, so that wrap-around is visible; the lemmas drop the reduction where the
exact result fits. -/

namespace Gandr.Word

def add (w a b : ℕ) : ℕ := (a + b) % 2^w

def sub (w a b : ℕ) : ℕ := (a + (2^w - b % 2^w)) % 2^w

def mul (w a b : ℕ) : ℕ := (a * b) % 2^w

/-- The largest value of an unsigned word, such as `UINTPTR_MAX`. -/
def max (w : ℕ) : ℕ := 2^w - 1

theorem add_of_lt {w a b : ℕ} (h : a + b < 2^w) : add w a b = a + b :=
  Nat.mod_eq_of_lt h

theorem mul_of_lt {w a b : ℕ} (h : a * b < 2^w) : mul w a b = a * b :=
  Nat.mod_eq_of_lt h

theorem add_lt (w a b : ℕ) : add w a b < 2^w :=
  Nat.mod_lt _ (Nat.two_pow_pos w)

theorem sub_of_le {w a b : ℕ} (ha : a < 2^w) (h : b ≤ a) : sub w a b = a - b := by
  have hb : b % 2^w = b := Nat.mod_eq_of_lt (by omega)
  have hs : a + (2^w - b) = (a - b) + 2^w := by omega
  rw [sub, hb, hs, Nat.add_mod_right]
  exact Nat.mod_eq_of_lt (by omega)

theorem le_max_iff {w a : ℕ} : a ≤ max w ↔ a < 2^w := by
  have := Nat.two_pow_pos w
  unfold max
  omega

end Gandr.Word
