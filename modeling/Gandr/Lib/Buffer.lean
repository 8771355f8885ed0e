import Mathlib.Tactic

/-! Buffers as functions of the offset: stores, copies and counted loops of
them. What a loop writes is a relation between offsets and values, the union of
what its rounds write. A copy within one buffer reads what earlier rounds have
written, so it has a lemma of its own. -/

namespace Gandr

abbrev Buffer (α : Type) := ℕ → α

namespace Buffer

variable {α : Type}

/-- The values `vs` from the offset `dest` on. -/
def store (b : Buffer α) (dest : ℕ) (vs : List α) : Buffer α := fun x =>
  if dest ≤ x then (vs[x - dest]?).getD (b x) else b x

/-- A copy from another buffer. -/
def memcpy (b : Buffer α) (dest : ℕ) (src : Buffer α) (start n : ℕ) : Buffer α := fun x =>
  if dest ≤ x ∧ x < dest + n then src (start + (x - dest)) else b x

/-- A copy within the buffer, one value after the other from the front. -/
def copyUp (b : Buffer α) (dest start : ℕ) : ℕ → Buffer α
  | 0 => b
  | n + 1 =>
    let b := copyUp b dest start n
    b.store (dest + n) [b (start + n)]

/-- Rounds `0` to `n - 1` of a loop. -/
def loop (n : ℕ) (f : ℕ → Buffer α → Buffer α) (b : Buffer α) : Buffer α :=
  match n with
  | 0 => b
  | n + 1 => f n (loop n f b)

theorem loop_add (m n : ℕ) (f : ℕ → Buffer α → Buffer α) (b : Buffer α) :
    loop (m + n) f b = loop n (fun i => f (m + i)) (loop m f b) := by
  induction n with
  | zero => rfl
  | succ n ih =>
    rw [← Nat.add_assoc, loop, loop, ih]

/-- Two nested loops are one. -/
theorem loop_nest (m n : ℕ) (f : ℕ → Buffer α → Buffer α) (b : Buffer α) :
    loop n (fun i => loop m fun j => f (m * i + j)) b = loop (m * n) f b := by
  induction n with
  | zero => rfl
  | succ n ih => rw [loop, ih, Nat.mul_succ, loop_add]

/-- Copying towards the front moves the old values. -/
theorem copyUp_apply (b : Buffer α) {dest start : ℕ} (h : dest ≤ start) (n x : ℕ) :
    copyUp b dest start n x =
      if dest ≤ x ∧ x < dest + n then b (start + (x - dest)) else b x := by
  induction n generalizing x with
  | zero => rw [copyUp, if_neg (by omega)]
  | succ n ih =>
    simp only [copyUp, store]
    by_cases hx : x = dest + n
    · subst hx
      have hread : copyUp b dest start n (start + n) = b (start + n) := by
        rw [ih, if_neg (by omega)]
      simp [hread]
    · by_cases hlt : dest + n ≤ x
      · have hnone : [copyUp b dest start n (start + n)][x - (dest + n)]? = none := by
          rw [List.getElem?_eq_none_iff, List.length_singleton]
          omega
        rw [if_pos hlt, hnone, Option.getD_none, ih, if_neg (by omega), if_neg (by omega)]
      · rw [if_neg hlt, ih]
        refine if_congr ?_ rfl rfl
        omega

/-- What `f` leaves at an offset is among the values that `V` lists for it, and
what was there before if `V` lists none. -/
def Writes (f : Buffer α → Buffer α) (V : ℕ → α → Prop) : Prop :=
  ∀ b x, V x (f b x) ∨ (∀ v, ¬ V x v) ∧ f b x = b x

namespace Writes

variable {f g : Buffer α → Buffer α} {V V' : ℕ → α → Prop}

theorem congr (h : Writes f V) (hV : ∀ x v, V x v ↔ V' x v) : Writes f V' := by
  intro b x
  simpa only [hV] using h b x

theorem id : Writes (fun b : Buffer α => b) fun _ _ => False :=
  fun _ _ => .inr ⟨fun _ h => h, rfl⟩

theorem comp (hg : Writes g V') (hf : Writes f V) :
    Writes (fun b => g (f b)) fun x v => V x v ∨ V' x v := by
  intro b x
  dsimp only
  rcases hg (f b) x with hx | ⟨hnone, hx⟩
  · exact .inl (.inr hx)
  · rw [hx]
    rcases hf b x with hy | ⟨hnone', hy⟩
    · exact .inl (.inl hy)
    · refine .inr ⟨?_, hy⟩
      rintro v (hv | hv)
      · exact hnone' v hv
      · exact hnone v hv

theorem loop {n : ℕ} {f : ℕ → Buffer α → Buffer α} {V : ℕ → ℕ → α → Prop}
    (h : ∀ i < n, Writes (f i) (V i)) :
    Writes (Buffer.loop n f) fun x v => ∃ i < n, V i x v := by
  induction n with
  | zero => exact id.congr (by simp)
  | succ n ih =>
    refine ((h n (Nat.lt_succ_self n)).comp
      (ih fun i hi => h i (Nat.lt_succ_of_lt hi))).congr ?_
    intro x v
    simp only [Nat.lt_succ_iff_lt_or_eq, or_and_right, exists_or, exists_eq_left]

theorem store (dest : ℕ) (vs : List α) :
    Writes (fun b => b.store dest vs) fun x v => ∃ k, x = dest + k ∧ vs[k]? = some v := by
  intro b x
  dsimp only [Buffer.store]
  by_cases hle : dest ≤ x
  · cases hv : vs[x - dest]? with
    | some v =>
      rw [if_pos hle]
      exact .inl ⟨x - dest, by omega, hv⟩
    | none =>
      rw [if_pos hle]
      refine .inr ⟨?_, rfl⟩
      rintro v ⟨k, rfl, hk⟩
      rw [Nat.add_sub_cancel_left, hk] at hv
      cases hv
  · refine .inr ⟨?_, if_neg hle⟩
    rintro v ⟨k, rfl, -⟩
    omega

theorem memcpy (dest : ℕ) (src : Buffer α) (start n : ℕ) :
    Writes (fun b => b.memcpy dest src start n)
      fun x v => ∃ k < n, x = dest + k ∧ v = src (start + k) := by
  intro b x
  by_cases hx : dest ≤ x ∧ x < dest + n
  · exact .inl ⟨x - dest, by omega, by omega, if_pos hx⟩
  · refine .inr ⟨?_, if_neg hx⟩
    rintro v ⟨k, hk, rfl, -⟩
    omega

/-- Offsets without a listed value keep what they had. -/
theorem frame (h : Writes f V) (b : Buffer α) {x : ℕ} (hx : ∀ v, ¬ V x v) : f b x = b x := by
  rcases h b x with hv | ⟨-, hv⟩
  · exact absurd hv (hx _)
  · exact hv

/-- An offset with one listed value gets it. -/
theorem value (h : Writes f V) (b : Buffer α) {x : ℕ} {v : α} (hx : V x v)
    (hone : ∀ w, V x w → w = v) : f b x = v := by
  rcases h b x with hv | ⟨hnone, -⟩
  · exact hone _ hv
  · exact absurd hx (hnone v)

end Writes

end Buffer

end Gandr
