import Gandr.Bios.Cdrom

/-! Numbers in a memory of bytes, the lowest byte first: what stores that follow one
another leave, and what is read back from them. -/

namespace Gandr.Bios.Bytes

open Cdrom (Memory le read16 read32)

variable (mem : Memory) {a n : ℕ}

theorem store_append {xs ys : List UInt8} (h : xs.length = n) :
    (mem.store (a + n) ys).store a xs = mem.store a (xs ++ ys) := by
  subst h
  funext x
  simp only [Buffer.store]
  by_cases h₁ : a ≤ x
  · by_cases h₂ : a + xs.length ≤ x
    · rw [if_pos h₁, if_pos h₁, if_pos h₂, List.getElem?_eq_none (by omega), Option.getD_none,
        List.getElem?_append_right (by omega), Nat.sub_sub]
    · rw [if_pos h₁, if_pos h₁, if_neg h₂, List.getElem?_append_left (by omega)]
  · rw [if_neg h₁, if_neg h₁, if_neg (by omega)]

/-- A store that goes on where another ended. -/
theorem store_after {xs ys : List UInt8} (h : xs.length = n) :
    (mem.store a xs).store (a + n) ys = mem.store a (xs ++ ys) := by
  subst h
  funext x
  simp only [Buffer.store]
  by_cases h₁ : a + xs.length ≤ x
  · have hnone : xs[x - a]? = none := List.getElem?_eq_none (by omega)
    rw [if_pos h₁, if_pos (by omega), if_pos (by omega), hnone,
      List.getElem?_append_right (by omega), Nat.sub_sub]
    rfl
  · rw [if_neg h₁]
    by_cases h₂ : a ≤ x
    · rw [if_pos h₂, if_pos h₂, List.getElem?_append_left (by omega)]
    · rw [if_neg h₂, if_neg h₂]

/-- The end of what was stored is overwritten. -/
theorem store_end {xs ys zs : List UInt8} (h : xs.length = n) (hlen : ys.length = zs.length) :
    (mem.store a (xs ++ ys)).store (a + n) zs = mem.store a (xs ++ zs) := by
  subst h
  funext x
  simp only [Buffer.store]
  by_cases h₁ : a + xs.length ≤ x
  · rw [if_pos h₁, if_pos (by omega), if_pos (by omega), List.getElem?_append_right (by omega),
      List.getElem?_append_right (by omega), Nat.sub_sub]
    by_cases h₂ : x - (a + xs.length) < zs.length
    · rw [List.getElem?_eq_getElem h₂]
      rfl
    · rw [List.getElem?_eq_none (by omega), List.getElem?_eq_none (by omega)]
      rfl
  · rw [if_neg h₁]
    by_cases h₂ : a ≤ x
    · rw [if_pos h₂, if_pos h₂, List.getElem?_append_left (by omega),
        List.getElem?_append_left (by omega)]
    · rw [if_neg h₂, if_neg h₂]

/-- A number is read from where its bytes are stored, whatever is around them. -/
theorem read16_append {xs ys : List UInt8} {v : ℕ} (h : xs.length = n) (hv : v < 2^16) :
    read16 (mem.store a (xs ++ (le 2 v ++ ys))) (a + n) = v := by
  subst h
  have hbyte := Cdrom.store_apply mem a (xs ++ (le 2 v ++ ys))
  rw [read16, Nat.add_assoc, hbyte, hbyte]
  simp [le, List.range_succ]
  omega

theorem read32_lt (a : ℕ) : read32 mem a < 2^32 := by
  have h₀ := (mem a).toNat_lt
  have h₁ := (mem (a + 1)).toNat_lt
  have h₂ := (mem (a + 2)).toNat_lt
  have h₃ := (mem (a + 3)).toNat_lt
  simp only [read32, read16, Nat.add_assoc, Nat.reduceAdd]
  omega

theorem read32_append {xs ys : List UInt8} {v : ℕ} (h : xs.length = n) (hv : v < 2^32) :
    read32 (mem.store a (xs ++ (le 4 v ++ ys))) (a + n) = v := by
  subst h
  have hbyte := Cdrom.store_apply mem a (xs ++ (le 4 v ++ ys))
  simp only [read32, read16, Nat.add_assoc, hbyte]
  simp [le, List.range_succ]
  omega

section Chunks

variable {chunks : List (List UInt8)} {i v : ℕ}

theorem flatten_split {vs : List UInt8} (h : chunks[i]? = some vs) :
    chunks.flatten = (chunks.take i).flatten ++ (vs ++ (chunks.drop (i + 1)).flatten) := by
  have hi : i < chunks.length := by
    by_contra hlt
    rw [List.getElem?_eq_none (by omega)] at h
    cases h
  rw [List.getElem?_eq_getElem hi, Option.some.injEq] at h
  conv_lhs => rw [← List.take_append_drop i chunks, List.drop_eq_getElem_cons hi, h]
  simp

theorem read16_flatten (ys : List UInt8) (h : chunks[i]? = some (le 2 v)) (hv : v < 2^16)
    (hn : ((chunks.map List.length).take i).sum = n) :
    read16 (mem.store a (chunks.flatten ++ ys)) (a + n) = v := by
  rw [flatten_split h, List.append_assoc, List.append_assoc]
  exact read16_append mem (by rw [List.length_flatten, List.map_take, hn]) hv

theorem read32_flatten (ys : List UInt8) (h : chunks[i]? = some (le 4 v)) (hv : v < 2^32)
    (hn : ((chunks.map List.length).take i).sum = n) :
    read32 (mem.store a (chunks.flatten ++ ys)) (a + n) = v := by
  rw [flatten_split h, List.append_assoc, List.append_assoc]
  exact read32_append mem (by rw [List.length_flatten, List.map_take, hn]) hv

end Chunks

variable {mem}

theorem read16_congr {mem' : Memory} (h : ∀ k < 2, mem' (a + k) = mem (a + k)) :
    read16 mem' a = read16 mem a := by
  have h₀ := h 0 (by omega)
  rw [Nat.add_zero] at h₀
  rw [read16, read16, h₀, h 1 (by omega)]

theorem read32_congr {mem' : Memory} (h : ∀ k < 4, mem' (a + k) = mem (a + k)) :
    read32 mem' a = read32 mem a := by
  have hlow : read16 mem' a = read16 mem a := read16_congr fun k hk => h k (by omega)
  have hhigh : read16 mem' (a + 2) = read16 mem (a + 2) := by
    refine read16_congr fun k hk => ?_
    rw [Nat.add_assoc]
    exact h (2 + k) (by omega)
  rw [read32, read32, hlow, hhigh]

end Gandr.Bios.Bytes
