import Gandr.Lib.Buffer

/-! Programs of loads, stores and copies over several regions. A program is the list
of its accesses, so that the bytes it touches are data, and running it gives what
it leaves in the regions. -/

namespace Gandr

inductive Access (ρ α : Type) where
  | load (r : ρ) (start n : ℕ)
  | store (r : ρ) (dest : ℕ) (vs : List α)
  | copy (r : ρ) (dest : ℕ) (src : ρ) (start n : ℕ)

namespace Access

abbrev Memory (ρ α : Type) := ρ → Buffer α

variable {ρ α : Type}

/-- The accesses of rounds `0` to `n - 1` of a loop. -/
def loop (n : ℕ) (f : ℕ → List (Access ρ α)) : List (Access ρ α) :=
  match n with
  | 0 => []
  | n + 1 => loop n f ++ f n

/-- The offsets of a region that are read or written. -/
def Touches : Access ρ α → ρ → ℕ → Prop
  | load r start n, r', x => r = r' ∧ start ≤ x ∧ x < start + n
  | store r dest vs, r', x => r = r' ∧ dest ≤ x ∧ x < dest + vs.length
  | copy r dest src start n, r', x =>
    r = r' ∧ dest ≤ x ∧ x < dest + n ∨ src = r' ∧ start ≤ x ∧ x < start + n

/-- All accesses lie in regions of the given sizes. -/
def Inside (size : ρ → ℕ) (ops : List (Access ρ α)) : Prop :=
  ∀ op ∈ ops, ∀ r x, op.Touches r x → x < size r

section Inside

variable {size : ρ → ℕ} {ops ops' : List (Access ρ α)}

theorem Inside.nil : Inside size ([] : List (Access ρ α)) :=
  fun _ h => nomatch h

theorem Inside.append (h : Inside size ops) (h' : Inside size ops') :
    Inside size (ops ++ ops') := by
  intro op hop
  rcases List.mem_append.mp hop with hop | hop
  · exact h op hop
  · exact h' op hop

theorem Inside.loop {n : ℕ} {f : ℕ → List (Access ρ α)} (h : ∀ i < n, Inside size (f i)) :
    Inside size (loop n f) := by
  induction n with
  | zero => exact Inside.nil
  | succ n ih =>
    exact (ih fun i hi => h i (Nat.lt_succ_of_lt hi)).append (h n (Nat.lt_succ_self n))

theorem Inside.load {r : ρ} {start n : ℕ} (h : start + n ≤ size r) :
    Inside size [(Access.load r start n : Access ρ α)] := by
  intro op hop
  cases List.mem_singleton.mp hop
  rintro r x ⟨rfl, -, hx⟩
  exact hx.trans_le h

theorem Inside.store {r : ρ} {dest : ℕ} {vs : List α} (h : dest + vs.length ≤ size r) :
    Inside size [Access.store r dest vs] := by
  intro op hop
  cases List.mem_singleton.mp hop
  rintro r x ⟨rfl, -, hx⟩
  exact hx.trans_le h

theorem Inside.copy {r src : ρ} {dest start n : ℕ} (h : dest + n ≤ size r)
    (h' : start + n ≤ size src) : Inside size [(Access.copy r dest src start n : Access ρ α)] := by
  intro op hop
  cases List.mem_singleton.mp hop
  rintro r x (⟨rfl, -, hx⟩ | ⟨rfl, -, hx⟩)
  · exact hx.trans_le h
  · exact hx.trans_le h'

end Inside

section Run

variable [DecidableEq ρ]

def step : Access ρ α → Memory ρ α → Memory ρ α
  | load _ _ _, mem => mem
  | store r dest vs, mem => Function.update mem r ((mem r).store dest vs)
  | copy r dest src start n, mem => Function.update mem r
    (if r = src then (mem r).copyUp dest start n else (mem r).memcpy dest (mem src) start n)

def run (ops : List (Access ρ α)) (mem : Memory ρ α) : Memory ρ α :=
  ops.foldl (fun mem op => op.step mem) mem

theorem run_append (ops ops' : List (Access ρ α)) (mem : Memory ρ α) :
    run (ops ++ ops') mem = run ops' (run ops mem) :=
  List.foldl_append

/-- With the other regions as in `mem`, the accesses do `g` to the region `r`. -/
def Does (mem : Memory ρ α) (r : ρ) (ops : List (Access ρ α)) (g : Buffer α → Buffer α) : Prop :=
  ∀ b, run ops (Function.update mem r b) = Function.update mem r (g b)

variable {mem : Memory ρ α} {r src : ρ} {ops ops' : List (Access ρ α)} {g g' : Buffer α → Buffer α}

theorem Does.nil : Does mem r [] fun b => b :=
  fun _ => rfl

theorem Does.append (h : Does mem r ops g) (h' : Does mem r ops' g') :
    Does mem r (ops ++ ops') fun b => g' (g b) := by
  intro b
  rw [run_append, h b, h' (g b)]

theorem Does.loop {n : ℕ} {f : ℕ → List (Access ρ α)} {g : ℕ → Buffer α → Buffer α}
    (h : ∀ i < n, Does mem r (f i) (g i)) : Does mem r (loop n f) (Buffer.loop n g) := by
  induction n with
  | zero => exact Does.nil
  | succ n ih =>
    exact (ih fun i hi => h i (Nat.lt_succ_of_lt hi)).append (h n (Nat.lt_succ_self n))

theorem Does.load (s : ρ) (start n : ℕ) : Does mem r [Access.load s start n] fun b => b :=
  fun _ => rfl

theorem Does.store (dest : ℕ) (vs : List α) :
    Does mem r [Access.store r dest vs] fun b => b.store dest vs := by
  intro b
  simp [run, step]

/-- A copy from another region. -/
theorem Does.copy (hne : src ≠ r) (dest start n : ℕ) :
    Does mem r [Access.copy r dest src start n] fun b => b.memcpy dest (mem src) start n := by
  intro b
  simp [run, step, Function.update_of_ne hne, hne.symm]

/-- A copy within the region. -/
theorem Does.move (dest start n : ℕ) :
    Does mem r [Access.copy r dest r start n] fun b => b.copyUp dest start n := by
  intro b
  simp [run, step]

theorem Does.run_eq (h : Does mem r ops g) : run ops mem = Function.update mem r (g (mem r)) := by
  conv_lhs => rw [← Function.update_eq_self r mem]
  exact h (mem r)

end Run

end Access

end Gandr
