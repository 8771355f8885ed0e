import Gandr.Lib.Strings

/-! The texts of the first stage: `itoa` of `bal/platform/bios/stage1/string.S` and
`output_string` of `output.S`. -/

namespace Gandr.Stage1

/-- `.loop_digits` of `itoa` for the first `n` characters, from the last of them on. -/
def itoaLoop : (n : ℕ) → (eax : UInt32) → CString → CString × UInt32
  | 0, eax, text => (text, eax)
  | n + 1, eax, text =>
    let bl := eax.toUInt8 &&& 0x0F
    let bl := if bl ≤ 9 then bl else bl + 7
    itoaLoop n (eax >>> 4 ||| eax <<< 28) (text.modify n (· + bl))

/-- The text, and `eax` at the end. -/
def itoa (eax : UInt32) : CString × UInt32 := itoaLoop 8 eax (List.replicate 8 0x30)

/-- What `output_string` sends to the screen. -/
def outputString (text : CString) : CString :=
  text.flatMap fun al => if al = 0x0A then [0x0A, 0x0D] else [al]

section Digits

def ror4 (eax : UInt32) : UInt32 := eax >>> 4 ||| eax <<< 28

theorem toNat_ror4 (eax : UInt32) : (ror4 eax).toNat = eax.toNat / 16 + eax.toNat % 16 * 2^28 := by
  have hlt := eax.toNat_lt
  have hlow : eax.toNat / 16 < 2^28 := by omega
  have hleft : (eax <<< 28).toNat = 2^28 * (eax.toNat % 16) := by
    rw [UInt32.toNat_shiftLeft, Nat.shiftLeft_eq]
    change eax.toNat * 2^28 % 2^32 = _
    omega
  have hright : (eax >>> 4).toNat = eax.toNat / 16 := by
    rw [UInt32.toNat_shiftRight, Nat.shiftRight_eq_div_pow]
    rfl
  rw [ror4, UInt32.toNat_or, hleft, hright, Nat.or_comm, ← Nat.two_pow_add_eq_or_of_lt hlow]
  omega

/-- The character of a digit. -/
def digitChar (bl : UInt8) : UInt8 := 0x30 + if bl ≤ 9 then bl else bl + 7

def digitValue (c : UInt8) : ℕ := if c ≤ 0x39 then c.toNat - 0x30 else c.toNat - 0x37

/-- The number that hexadecimal digits stand for. -/
def hexValue (text : CString) : ℕ := text.foldl (fun v c => 16 * v + digitValue c) 0

/-- The characters `0` to `9` and `A` to `F`. -/
def IsHex (c : UInt8) : Prop := 0x30 ≤ c ∧ c ≤ 0x39 ∨ 0x41 ≤ c ∧ c ≤ 0x46

instance : DecidablePred IsHex := fun _ => instDecidableOr

def lastDigit (eax : UInt32) : UInt8 := digitChar (eax.toUInt8 &&& 0x0F)

theorem lastDigit_eq (eax : UInt32) :
    IsHex (lastDigit eax) ∧ digitValue (lastDigit eax) = eax.toNat % 16 := by
  have hall : ∀ v < 16, IsHex (digitChar (UInt8.ofNat v)) ∧
      digitValue (digitChar (UInt8.ofNat v)) = v := by
    decide
  have hbl : eax.toUInt8 &&& 0x0F = UInt8.ofNat (eax.toNat % 16) := by
    rw [← UInt8.toNat_inj, UInt8.toNat_and, UInt8.toNat_ofNat', UInt32.toNat_toUInt8]
    change _ &&& (2^4 - 1) = _
    rw [Nat.and_two_pow_sub_one_eq_mod]
    omega
  rw [lastDigit, hbl]
  exact hall _ (Nat.mod_lt _ (by decide))

/-- The last `n` digits, as the loop leaves them. -/
def digits : (n : ℕ) → UInt32 → CString
  | 0, _ => []
  | n + 1, eax => digits n (ror4 eax) ++ [lastDigit eax]

theorem modify_replicate (n : ℕ) (f : UInt8 → UInt8) (rest : CString) :
    (List.replicate (n + 1) 0x30 ++ rest).modify n f = List.replicate n 0x30 ++ f 0x30 :: rest := by
  induction n with
  | zero => rfl
  | succ n ih =>
    rw [List.replicate_succ, List.cons_append, List.modify_succ_cons, ih, List.replicate_succ,
      List.cons_append]

theorem itoaLoop_eq (n : ℕ) (eax : UInt32) (rest : CString) :
    itoaLoop n eax (List.replicate n 0x30 ++ rest) = (digits n eax ++ rest, ror4^[n] eax) := by
  induction n generalizing eax rest with
  | zero => rfl
  | succ n ih =>
    rw [itoaLoop, modify_replicate]
    refine (ih (ror4 eax) (lastDigit eax :: rest)).trans ?_
    rw [digits, List.append_assoc, List.singleton_append, Function.iterate_succ_apply]

/-- Rotated by `k` digits, the upper digits come below the lower ones. -/
theorem toNat_ror4_iterate {k : ℕ} (hk : k ≤ 8) (eax : UInt32) :
    (ror4^[k] eax).toNat = eax.toNat / 16^k + eax.toNat % 16^k * 16^(8 - k) := by
  have hlt := eax.toNat_lt
  induction k with
  | zero => simp [Nat.mod_one]
  | succ k ih =>
    have hk' : k < 8 := hk
    rw [Function.iterate_succ_apply', toNat_ror4, ih (by omega)]
    interval_cases k <;> simp only [Nat.reduceAdd, Nat.reducePow, Nat.reduceSub] <;> omega

theorem hexValue_digits {n : ℕ} (hn : n ≤ 8) (eax : UInt32) :
    hexValue (digits n eax) = eax.toNat % 16^n := by
  induction n generalizing eax with
  | zero => simp [digits, hexValue, Nat.mod_one]
  | succ n ih =>
    have hstep : hexValue (digits (n + 1) eax) =
        16 * hexValue (digits n (ror4 eax)) + digitValue (lastDigit eax) := by
      rw [digits, hexValue, List.foldl_append]
      rfl
    have hlow : (eax.toNat / 16 + eax.toNat % 16 * 2^28) % 16^n = eax.toNat / 16 % 16^n := by
      have hpow : 2^28 = 16^n * 16^(7 - n) := by
        rw [← pow_add, show n + (7 - n) = 7 by omega]
        rfl
      rw [hpow, Nat.mul_left_comm, Nat.add_mul_mod_self_left]
    rw [hstep, ih (by omega), (lastDigit_eq eax).2, toNat_ror4, hlow, Nat.pow_succ', Nat.mod_mul]
    omega

theorem isHex_of_mem_digits {n : ℕ} {eax : UInt32} {c : UInt8} (h : c ∈ digits n eax) : IsHex c := by
  induction n generalizing eax with
  | zero => cases h
  | succ n ih =>
    rw [digits, List.mem_append, List.mem_singleton] at h
    rcases h with h | rfl
    · exact ih h
    · exact (lastDigit_eq eax).1

theorem length_digits (n : ℕ) (eax : UInt32) : (digits n eax).length = n := by
  induction n generalizing eax with
  | zero => rfl
  | succ n ih => rw [digits, List.length_append, ih, List.length_singleton]

/-- `itoa` writes eight digits that stand for the number, and leaves it in `eax`. -/
theorem itoa_digits (eax : UInt32) : (itoa eax).1.length = 8 ∧ (∀ c ∈ (itoa eax).1, IsHex c) ∧
    hexValue (itoa eax).1 = eax.toNat ∧ (itoa eax).2 = eax := by
  have hlt := eax.toNat_lt
  have hloop := itoaLoop_eq 8 eax []
  rw [List.append_nil, List.append_nil] at hloop
  rw [itoa, hloop]
  refine ⟨length_digits 8 eax, fun c hc => isHex_of_mem_digits hc, ?_, ?_⟩
  · rw [hexValue_digits le_rfl]
    omega
  · rw [← UInt32.toNat_inj, toNat_ror4_iterate le_rfl]
    omega

/-- A text without the end of a line is printed as it is. -/
theorem outputString_eq {text : CString} (h : (0x0A : UInt8) ∉ text) : outputString text = text := by
  induction text with
  | nil => rfl
  | cons al text ih =>
    rw [List.mem_cons, not_or] at h
    rw [outputString, List.flatMap_cons, if_neg (Ne.symm h.1)]
    exact congrArg (al :: ·) (ih h.2)

theorem outputString_append (text text' : CString) :
    outputString (text ++ text') = outputString text ++ outputString text' :=
  List.flatMap_append

theorem outputString_itoa (eax : UInt32) : outputString (itoa eax).1 = (itoa eax).1 := by
  refine outputString_eq fun h => ?_
  have hhex := (itoa_digits eax).2.1 _ h
  revert hhex
  decide

end Digits

end Gandr.Stage1
