import Gandr.Fb.Model

/-! Where the bytes of a character line are. With scanlines of `S` bytes, byte
`c` of pixel row `j` of character line `q` is at `cell S q j c`. The modes
considered leave room for one character, and their offsets fit in 31 bits. -/

namespace Gandr.Fb

structure ModeInfo.Valid (m : ModeInfo) : Prop where
  depth : m.depth = 8 ∨ m.depth = 16 ∨ m.depth = 24 ∨ m.depth = 32
  width : 8 ≤ m.width
  height : 13 ≤ m.height
  multiple : m.depth / 8 ∣ m.bytesPerScanline
  scanline : m.width * m.depth / 8 ≤ m.bytesPerScanline
  pixels : m.width * m.height * m.depth < 2^31
  bytes : m.height * m.bytesPerScanline < 2^31

/-- The bytes of a pixel. -/
def ModeInfo.pixelSize (m : ModeInfo) : ℕ := m.depth / 8

/-- The bytes of the pixels in a row. -/
def ModeInfo.rowBytes (m : ModeInfo) : ℕ := m.width * m.pixelSize

/-- Character lines on the screen. -/
def ModeInfo.lines (m : ModeInfo) : ℕ := m.height / 13

/-- Characters in a line. -/
def ModeInfo.columns (m : ModeInfo) : ℕ := m.width / 8

def cell (S q j c : ℕ) : ℕ := (13 * q + j) * S + c

theorem u32_of_lt {x : ℕ} (h : x < 2^32) : u32 x = x := Nat.mod_eq_of_lt h

section Cells

variable {S q j c q' j' c' : ℕ}

theorem row_inj {r r' : ℕ} (hc : c < S) (hc' : c' < S) (h : r * S + c = r' * S + c') :
    r = r' ∧ c = c' := by
  have hS : 0 < S := by omega
  have hrow : ∀ r c, c < S → (r * S + c) / S = r := by
    intro r c hc
    rw [Nat.mul_comm, Nat.mul_add_div hS, Nat.div_eq_of_lt hc, Nat.add_zero]
  have hr := congrArg (· / S) h
  simp only [hrow _ _ hc, hrow _ _ hc'] at hr
  subst hr
  exact ⟨rfl, Nat.add_left_cancel h⟩

theorem cell_inj (hc : c < S) (hc' : c' < S) (hj : j < 13) (hj' : j' < 13)
    (h : cell S q j c = cell S q' j' c') : q = q' ∧ j = j' ∧ c = c' := by
  obtain ⟨hr, rfl⟩ := row_inj hc hc' h
  exact ⟨by omega, by omega, rfl⟩

/-- Lines without padding fill a buffer from its start. -/
theorem lt_lines_iff (hS : 0 < S) {n x : ℕ} :
    x < n * (13 * S) ↔ ∃ q < n, ∃ j < 13, ∃ c < S, x = cell S q j c := by
  constructor
  · intro h
    have hq : x / (13 * S) < n := (Nat.div_lt_iff_lt_mul (by omega)).mpr h
    have hj : x % (13 * S) / S < 13 :=
      (Nat.div_lt_iff_lt_mul hS).mpr (Nat.mod_lt _ (by omega))
    refine ⟨x / (13 * S), hq, x % (13 * S) / S, hj, x % (13 * S) % S, Nat.mod_lt _ hS, ?_⟩
    have h₁ := Nat.div_add_mod x (13 * S)
    have h₂ := Nat.div_add_mod (x % (13 * S)) S
    unfold cell
    calc x = 13 * S * (x / (13 * S)) + (S * (x % (13 * S) / S) + x % (13 * S) % S) := by
            rw [h₂, h₁]
      _ = _ := by ring
  · rintro ⟨q, hq, j, hj, c, hc, rfl⟩
    unfold cell
    calc (13 * q + j) * S + c < (13 * q + j) * S + S := by omega
      _ = (13 * q + j + 1) * S := by ring
      _ ≤ (13 * n) * S := Nat.mul_le_mul_right _ (by omega)
      _ = n * (13 * S) := by ring

theorem le_cell : q * (13 * S) ≤ cell S q j c := by
  unfold cell
  calc q * (13 * S) = 13 * q * S := by ring
    _ ≤ (13 * q + j) * S := Nat.mul_le_mul_right _ (Nat.le_add_right _ _)
    _ ≤ (13 * q + j) * S + c := Nat.le_add_right _ _

theorem cell_lt (hj : j < 13) (hc : c < S) : cell S q j c < (q + 1) * (13 * S) :=
  (lt_lines_iff (by omega)).mpr ⟨q, Nat.lt_succ_self q, j, hj, c, hc, rfl⟩

theorem cell_add (n : ℕ) : cell S (n + q) j c = n * (13 * S) + cell S q j c := by
  unfold cell
  ring

end Cells

namespace ModeInfo.Valid

variable {m : ModeInfo} (h : m.Valid)
include h

theorem pixelSize_cases :
    m.pixelSize = 1 ∨ m.pixelSize = 2 ∨ m.pixelSize = 3 ∨ m.pixelSize = 4 := by
  unfold ModeInfo.pixelSize
  rcases h.depth with hd | hd | hd | hd <;> simp [hd]

theorem pixelSize_pos : 0 < m.pixelSize := by
  rcases h.pixelSize_cases with hd | hd | hd | hd <;> omega

theorem depth_eq : m.depth = 8 * m.pixelSize := by
  unfold ModeInfo.pixelSize
  rcases h.depth with hd | hd | hd | hd <;> simp [hd]

theorem rowBytes_eq (n : ℕ) : n * m.depth / 8 = n * m.pixelSize := by
  rw [h.depth_eq, Nat.mul_left_comm, Nat.mul_div_cancel_left _ (by decide)]

theorem rowBytes_pos : 0 < m.rowBytes :=
  Nat.mul_pos (by have := h.width; omega) h.pixelSize_pos

theorem rowBytes_le : m.rowBytes ≤ m.bytesPerScanline := by
  rw [ModeInfo.rowBytes, ← h.rowBytes_eq]
  exact h.scanline

theorem contig_iff : m.bytesPerScanline = m.width * m.depth / 8 ↔
    m.bytesPerScanline = m.rowBytes := by
  rw [h.rowBytes_eq, ModeInfo.rowBytes]

theorem lines_pos : 0 < m.lines := by
  have := h.height
  unfold ModeInfo.lines
  omega

theorem columns_pos : 0 < m.columns := by
  have := h.width
  unfold ModeInfo.columns
  omega

omit h in
theorem lines_le : 13 * m.lines ≤ m.height := by
  unfold ModeInfo.lines
  omega

/-- Offsets of rows of the front buffer. -/
theorem row_lt {r : ℕ} (hr : r ≤ m.height) : r * m.bytesPerScanline < 2^31 :=
  lt_of_le_of_lt (Nat.mul_le_mul_right _ hr) h.bytes

/-- Bits in rows of pixels. -/
theorem bits_lt {r : ℕ} (hr : r ≤ m.height) : r * m.width * m.depth < 2^31 := by
  refine lt_of_le_of_lt (Nat.mul_le_mul_right _ ?_) h.pixels
  rw [Nat.mul_comm r]
  exact Nat.mul_le_mul_left _ hr

theorem height_lt : m.height < 2^31 := by
  have := h.row_lt le_rfl
  have := h.rowBytes_pos
  have := h.rowBytes_le
  have hle : m.height * 1 ≤ m.height * m.bytesPerScanline := Nat.mul_le_mul_left _ (by omega)
  omega

theorem width_lt : m.width < 2^31 := by
  have hpos : 1 ≤ m.height * m.depth := by
    have := h.height
    have := h.pixelSize_pos
    have := h.depth_eq
    exact Nat.mul_pos (by omega) (by omega)
  have hle : m.width * 1 ≤ m.width * (m.height * m.depth) := Nat.mul_le_mul_left _ hpos
  have := h.pixels
  rw [Nat.mul_assoc] at this
  omega

theorem row_bytes_lt {r : ℕ} (hr : r ≤ m.height) : r * m.rowBytes < 2^31 :=
  lt_of_le_of_lt (Nat.mul_le_mul_left _ h.rowBytes_le) (h.row_lt hr)

theorem lines_lt : m.lines < 2^31 := by
  have := h.height_lt
  have := @lines_le m
  omega

end ModeInfo.Valid

/-- The bytes of the character lines in the front buffer. -/
def Text (m : ModeInfo) (x : ℕ) : Prop :=
  ∃ q < m.lines, ∃ j < 13, ∃ c < m.rowBytes, x = cell m.bytesPerScanline q j c

section Writes

variable {dev : Device} {m : ModeInfo}

theorem length_pixelBytes (h : m.Valid) (pixel : UInt32) :
    (pixelBytes m.depth pixel).length = m.pixelSize := by
  unfold ModeInfo.pixelSize
  rcases h.depth with hd | hd | hd | hd <;> simp [hd, pixelBytes]

theorem getElem?_pixelBytes_zero (h : m.Valid) {k : ℕ} {v : UInt8} :
    (pixelBytes m.depth 0)[k]? = some v ↔ k < m.pixelSize ∧ v = 0 := by
  have hzero : pixelBytes m.depth 0 = List.replicate m.pixelSize 0 := by
    unfold ModeInfo.pixelSize
    rcases h.depth with hd | hd | hd | hd <;> rw [hd] <;> rfl
  rw [hzero, List.getElem?_replicate]
  split_ifs with hk
  · simp [hk, eq_comm]
  · simp [hk]

/-- Clearing pixels stores zero bytes. -/
theorem memsetPixel_writes (h : m.Valid) (hm : dev.curMode = m) (dest n : ℕ) :
    Buffer.Writes (memsetPixel dev dest 0 n)
      fun x v => ∃ k < n * m.pixelSize, x = dest + k ∧ v = 0 := by
  unfold memsetPixel
  rw [hm]
  refine (Buffer.Writes.loop fun i _ => Buffer.Writes.store _ _).congr ?_
  intro x v
  simp only [length_pixelBytes h, getElem?_pixelBytes_zero h]
  have hpos := h.pixelSize_pos
  constructor
  · rintro ⟨i, hi, k, rfl, hk, rfl⟩
    refine ⟨i * m.pixelSize + k, ?_, by omega, rfl⟩
    calc i * m.pixelSize + k < i * m.pixelSize + m.pixelSize := by omega
      _ = (i + 1) * m.pixelSize := by ring
      _ ≤ n * m.pixelSize := Nat.mul_le_mul_right _ hi
  · rintro ⟨k, hk, rfl, rfl⟩
    refine ⟨k / m.pixelSize, (Nat.div_lt_iff_lt_mul hpos).mpr hk, k % m.pixelSize, ?_,
      Nat.mod_lt _ hpos, rfl⟩
    have := Nat.div_add_mod k m.pixelSize
    rw [Nat.mul_comm] at this
    omega

end Writes

end Gandr.Fb
