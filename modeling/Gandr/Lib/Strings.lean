import Gandr.Lib.Buffer

/-! C strings and the bounded copies of the BSD library. A string is the list of
its bytes before the end; in a buffer a zero byte ends it. -/

namespace Gandr

/-- The bytes of a C string before its end. -/
abbrev CString := List UInt8

def CString.ofString (text : String) : CString := text.toList.map fun c => UInt8.ofNat c.toNat

/-- The length of the string in the first `size` bytes, or `size`. -/
def strnlen (b : Buffer UInt8) : ℕ → ℕ
  | 0 => 0
  | size + 1 => if b 0 = 0 then 0 else strnlen (fun i => b (i + 1)) size + 1

/-- The string in the first `size` bytes of a buffer. -/
def cString (b : Buffer UInt8) (size : ℕ) : CString := (List.range (strnlen b size)).map b

/-- The buffer after `strlcpy`, which returns the length of `src`. -/
def strlcpy (b : Buffer UInt8) (src : CString) (size : ℕ) : Buffer UInt8 :=
  if size = 0 then b else b.store 0 (src.take (size - 1) ++ [0])

/-- The buffer after `strlcat`; without an end in the buffer nothing is appended. -/
def strlcat (b : Buffer UInt8) (src : CString) (size : ℕ) : Buffer UInt8 :=
  let n := strnlen b size
  if n < size then b.store n (src.take (size - n - 1) ++ [0]) else b

theorem strnlen_of_end {b : Buffer UInt8} {size n : ℕ} (hn : n < size) (hend : b n = 0)
    (hb : ∀ i < n, b i ≠ 0) : strnlen b size = n := by
  induction n generalizing b size with
  | zero =>
    obtain ⟨size, rfl⟩ := Nat.exists_eq_add_of_lt hn
    simp [strnlen, hend]
  | succ n ih =>
    obtain ⟨size, rfl⟩ : ∃ m, size = m + 1 := ⟨size - 1, by omega⟩
    rw [strnlen, if_neg (hb 0 (Nat.succ_pos n)),
      ih (Nat.lt_of_succ_lt_succ hn) hend fun i hi => hb (i + 1) (Nat.succ_lt_succ hi)]

/-- The string that a buffer holds with its end. -/
theorem cString_of_getD {b : Buffer UInt8} {s : CString} (hs : 0 ∉ s) {size : ℕ}
    (hsize : s.length < size) (hb : ∀ i ≤ s.length, b i = (s[i]?).getD 0) : cString b size = s := by
  have hchar : ∀ i (hi : i < s.length), b i = s[i] := by
    intro i hi
    rw [hb i hi.le, List.getElem?_eq_getElem hi, Option.getD_some]
  have hend : b s.length = 0 := by
    rw [hb _ le_rfl, List.getElem?_eq_none le_rfl, Option.getD_none]
  have hlen : strnlen b size = s.length := by
    refine strnlen_of_end hsize hend fun i hi h0 => hs ?_
    rw [← h0, hchar i hi]
    exact List.getElem_mem hi
  rw [cString, hlen]
  refine List.ext_getElem (by simp) fun i hi hi' => ?_
  rw [List.getElem_map, List.getElem_range, hchar i hi']

/-- A store that starts inside an earlier one and reaches as far replaces its end. -/
theorem store_overwrite (b : Buffer UInt8) (v x y : List UInt8) (h : x.length ≤ y.length) :
    (b.store 0 (v ++ x)).store v.length y = b.store 0 (v ++ y) := by
  funext i
  simp only [Buffer.store, Nat.zero_le, if_true, Nat.sub_zero]
  by_cases hv : v.length ≤ i
  · rw [if_pos hv, List.getElem?_append_right hv, List.getElem?_append_right hv]
    by_cases hy : i - v.length < y.length
    · simp [List.getElem?_eq_getElem hy]
    · have hx : ¬ i - v.length < x.length := by omega
      simp [List.getElem?_eq_none (Nat.le_of_not_lt hy), List.getElem?_eq_none (Nat.le_of_not_lt hx)]
  · rw [if_neg hv, List.getElem?_append_left (by omega), List.getElem?_append_left (by omega)]

section Copy

variable (b : Buffer UInt8) {s : CString}

theorem strlcpy_apply (s : CString) {size i : ℕ} (hi : i < min (size - 1) s.length) :
    strlcpy b s size i = (s[i]?).getD 0 := by
  have hsize : size ≠ 0 := by omega
  have htake : i < (s.take (size - 1)).length := by simpa using hi
  have hs : i < s.length := by omega
  rw [strlcpy, if_neg hsize, Buffer.store, if_pos (Nat.zero_le i), Nat.sub_zero,
    List.getElem?_append_left htake, List.getElem?_take_of_lt (by omega),
    List.getElem?_eq_getElem hs]
  rfl

theorem strlcpy_end (s : CString) {size : ℕ} (hsize : size ≠ 0) :
    strlcpy b s size (min (size - 1) s.length) = 0 := by
  have hlen : (s.take (size - 1)).length = min (size - 1) s.length := by simp
  rw [strlcpy, if_neg hsize, Buffer.store, if_pos (Nat.zero_le _), Nat.sub_zero, ← hlen,
    List.getElem?_append_right le_rfl]
  simp

theorem strlcpy_outside (s : CString) {size i : ℕ} (hi : size ≤ i) : strlcpy b s size i = b i := by
  rw [strlcpy]
  split_ifs with hsize
  · rfl
  · have hlen : (s.take (size - 1) ++ [0]).length ≤ i := by
      rw [List.length_append, List.length_take, List.length_singleton]
      omega
    rw [Buffer.store, if_pos (Nat.zero_le i), Nat.sub_zero, List.getElem?_eq_none hlen]
    rfl

theorem strnlen_strlcpy (hs : 0 ∉ s) {size : ℕ} (hsize : size ≠ 0) :
    strnlen (strlcpy b s size) size = min (size - 1) s.length := by
  refine strnlen_of_end (by omega) (strlcpy_end b s hsize) fun i hi => ?_
  have hlt : i < s.length := by omega
  rw [strlcpy_apply b s hi, List.getElem?_eq_getElem hlt]
  exact fun hzero => hs (hzero ▸ List.getElem_mem hlt)

/-- The string that a copy leaves in the buffer. -/
theorem cString_strlcpy (hs : 0 ∉ s) {size : ℕ} (hsize : size ≠ 0) :
    cString (strlcpy b s size) size = s.take (size - 1) := by
  rw [cString, strnlen_strlcpy b hs hsize]
  refine List.ext_getElem (by simp) fun i hi hi' => ?_
  have hi : i < min (size - 1) s.length := by simpa using hi
  have hlt : i < s.length := by omega
  rw [List.getElem_map, List.getElem_range, strlcpy_apply b s hi, List.getElem?_eq_getElem hlt,
    List.getElem_take]
  rfl

/-- Appending to a copy is copying the longer string. -/
theorem strlcat_strlcpy (hs : 0 ∉ s) (u : CString) (size : ℕ) :
    strlcat (strlcpy b s size) u size = strlcpy b (s ++ u) size := by
  rcases Nat.eq_zero_or_pos size with rfl | hpos
  · rfl
  have hsize : size ≠ 0 := by omega
  have hn : strnlen (strlcpy b s size) size = (s.take (size - 1)).length := by
    rw [strnlen_strlcpy b hs hsize, List.length_take]
  have hlen : (s.take (size - 1)).length = min (size - 1) s.length := by simp
  have hlt : (s.take (size - 1)).length < size := by omega
  have hrest : size - (s.take (size - 1)).length - 1 = size - 1 - s.length := by omega
  rw [strlcat, hn, if_pos hlt, hrest, strlcpy, if_neg hsize, store_overwrite _ _ _ _ (by simp),
    strlcpy, if_neg hsize, List.take_append, List.append_assoc]

end Copy

end Gandr
