import Gandr.Fb.Accesses

/-! Nothing outside the buffers is touched. The invariant of a run says where the
cursor, the ring and the dirty lines are; the ring has moved only where all lines are
dirty, so that what is rendered never runs over the end of the back buffer. -/

namespace Gandr.Fb

open Access

/-- The bytes of the buffers and of the table of 256 characters. -/
def ModeInfo.size (m : ModeInfo) : Region → ℕ
  | .front => m.height * m.bytesPerScanline
  | .back => m.width * (m.height / 13) * 13 * m.depth / 8
  | .font => 256 * 13

/-- The accesses `ops` lead from `dev` to `dev'` and stay in the buffers. -/
structure Stays (fontData : Buffer UInt8) (m : ModeInfo) (dev : Device) (ops : Accesses)
    (dev' : Device) : Prop where
  run : run ops (dev.regions fontData) = dev'.regions fontData
  inside : Inside m.size ops

/-- What is configured and where the device is in it. -/
structure Bounded (m : ModeInfo) (dev : Device) : Prop where
  mode : dev.curMode = m
  maxWidth : dev.maxWidth = m.columns
  maxHeight : dev.maxHeight = m.lines
  contig : dev.contigScanlines = decide (m.bytesPerScanline = m.rowBytes)
  writer : ∃ w, dev.fbWriteCharDepth = some w ∧ w.depth = m.depth
  curX : dev.curX < m.columns
  curY : dev.curY < m.lines
  start : dev.backBufferStart < m.lines
  dirtyStart : dev.frontDirtyStart = 0
  dirtyEnd : dev.frontDirtyEnd ≤ m.lines
  unmoved : dev.frontDirtyEnd < m.lines → dev.backBufferStart = 0

section Sizes

variable {m : ModeInfo} {dev : Device}

theorem row_end {r n S c : ℕ} (hr : r < n) (hc : c ≤ S) : r * S + c ≤ n * S :=
  calc r * S + c ≤ r * S + S := Nat.add_le_add_left hc _
    _ = (r + 1) * S := by ring
    _ ≤ n * S := Nat.mul_le_mul_right _ hr

theorem size_back (h : m.Valid) : m.size .back = 13 * m.lines * m.rowBytes := by
  have hlines : m.height / 13 = m.lines := rfl
  rw [ModeInfo.size, h.rowBytes_eq, hlines, ModeInfo.rowBytes]
  ring

/-- `n` lines from line `d` on. -/
theorem lines_end {d n S : ℕ} (h : d + n ≤ m.lines) :
    d * (13 * S) + n * (13 * S) ≤ 13 * m.lines * S :=
  calc d * (13 * S) + n * (13 * S) = 13 * (d + n) * S := by ring
    _ ≤ 13 * m.lines * S := Nat.mul_le_mul_right _ (by omega)

theorem lines_le_front : 13 * m.lines * m.bytesPerScanline ≤ m.size .front :=
  Nat.mul_le_mul_right _ ModeInfo.Valid.lines_le

theorem charLine_eq (h : m.Valid) :
    u32 (13 * m.bytesPerScanline) = 13 * m.bytesPerScanline :=
  u32_of_lt (by have := h.row_lt h.height; omega)

theorem memset_inside (h : m.Valid) (hm : dev.curMode = m) {r : Region} {dest n : ℕ}
    (hend : dest + n * m.pixelSize ≤ m.size r) (pixel : UInt32) :
    Inside m.size (memsetPixelAccesses dev r dest pixel n) := by
  refine Inside.loop fun i hi => Inside.store ?_
  rw [hm, length_pixelBytes h]
  have := row_end hi (le_refl m.pixelSize)
  omega

end Sizes

namespace Bounded

variable {m : ModeInfo} {dev : Device}

section Clear

theorem clearFront_inside (h : m.Valid) (hm : dev.curMode = m)
    (hcontig : dev.contigScanlines = decide (m.bytesPerScanline = m.rowBytes)) :
    Inside m.size (clearFrontAccesses dev) := by
  unfold clearFrontAccesses
  dsimp only
  rw [hcontig, hm]
  by_cases hS : m.bytesPerScanline = m.rowBytes
  · rw [if_pos (decide_eq_true hS)]
    refine memset_inside h hm ?_ _
    rw [ModeInfo.size, hS, ModeInfo.rowBytes, Nat.zero_add]
    exact le_of_eq (by ring)
  · rw [if_neg (by simp [hS])]
    refine Inside.loop fun i hi => memset_inside h hm ?_ _
    rw [u32_of_lt (by have := h.row_lt hi.le; omega)]
    exact row_end hi h.rowBytes_le

theorem clear_inside (h : m.Valid) (hm : dev.curMode = m) (hM : dev.maxHeight = m.lines)
    (hcontig : dev.contigScanlines = decide (m.bytesPerScanline = m.rowBytes)) :
    Inside m.size (clearAccesses dev) := by
  have hfront := clearFront_inside h hm hcontig
  unfold clearAccesses
  split
  · exact hfront
  · refine (memset_inside h hm ?_ _).append hfront
    have hle : u32 (m.width * m.lines * 13) ≤ m.width * m.lines * 13 := Nat.mod_le _ _
    rw [size_back h, hM, hm, fontHeight, Nat.zero_add]
    calc u32 (m.width * m.lines * 13) * m.pixelSize ≤ m.width * m.lines * 13 * m.pixelSize :=
          Nat.mul_le_mul_right _ hle
      _ = 13 * m.lines * m.rowBytes := by
          unfold ModeInfo.rowBytes
          ring

end Clear

variable (hb : Bounded m dev)
include hb

section Render

theorem renderRows_inside (h : m.Valid) {n : ℕ} {d s : ℕ → ℕ} (hd : ∀ i < n, d i < m.lines)
    (hs : ∀ i < n, s i < m.lines) :
    Inside m.size (Access.loop n fun i => Access.loop 13 fun j =>
      renderRowAccesses dev (d i * 13 + j) (s i * 13 + j)) := by
  have hle := @ModeInfo.Valid.lines_le m
  refine Inside.loop fun i hi => Inside.loop fun j hj => ?_
  have hdi := hd i hi
  have hsi := hs i hi
  unfold renderRowAccesses
  dsimp only
  rw [hb.mode, h.rowBytes_eq m.width]
  refine Inside.copy ?_ ?_
  · rw [u32_of_lt (by have := h.row_lt (by omega : d i * 13 + j ≤ m.height); omega)]
    exact row_end (by omega) h.rowBytes_le
  · rw [size_back h]
    exact row_end (by omega) le_rfl

omit hb in
theorem copyLines_inside (h : m.Valid) (hS : m.bytesPerScanline = m.rowBytes) {d s n : ℕ}
    (hd : d + n ≤ m.lines) (hs : s + n ≤ m.lines) :
    Inside m.size ([.copy .front (d * (13 * m.bytesPerScanline)) .back
      (s * (13 * m.bytesPerScanline)) (n * (13 * m.bytesPerScanline))] : Accesses) := by
  refine Inside.copy ((lines_end hd).trans lines_le_front) ?_
  rw [size_back h, ← hS]
  exact lines_end hs

/-- The two branches, for a ring that has not moved. -/
theorem render_unmoved_inside (h : m.Valid) (hpos : 0 < dev.frontDirtyEnd)
    (hlt : dev.frontDirtyEnd < m.lines) :
    Inside m.size (if dev.contigScanlines then renderContigAccesses dev 0 dev.frontDirtyEnd
      else renderRowsAccesses dev 0 dev.frontDirtyEnd) := by
  by_cases hS : m.bytesPerScanline = m.rowBytes
  · rw [if_pos (by rw [hb.contig]; exact decide_eq_true hS), renderContigAccesses, hb.mode,
      fontHeight, charLine_eq h, if_pos hpos, hb.dirtyStart, Nat.sub_zero]
    exact copyLines_inside h hS (by omega) (by omega)
  · rw [if_neg (by simp [hb.contig, hS]), renderRowsAccesses, if_pos hpos, hb.dirtyStart,
      Nat.sub_zero]
    exact hb.renderRows_inside h (fun i hi => by omega) (fun i hi => by omega)

/-- The two parts of the ring, where all lines are dirty. -/
theorem render_wrapped_inside (h : m.Valid) :
    Inside m.size (if dev.contigScanlines
      then renderContigAccesses dev dev.backBufferStart dev.backBufferStart
      else renderRowsAccesses dev dev.backBufferStart dev.backBufferStart) := by
  have hlt := h.lines_lt
  have hstart := hb.start
  have hleft : Word.sub 32 m.lines dev.backBufferStart = m.lines - dev.backBufferStart :=
    Word.sub_of_le (by omega) hstart.le
  have hlines : u32 m.lines = m.lines := u32_of_lt (by omega)
  by_cases hS : m.bytesPerScanline = m.rowBytes
  · rw [if_pos (by rw [hb.contig]; exact decide_eq_true hS), renderContigAccesses, hb.mode,
      fontHeight, charLine_eq h, if_neg (lt_irrefl _), hb.dirtyStart, hb.maxHeight, Nat.zero_add,
      hlines, hleft]
    refine (copyLines_inside h hS (by omega) (by omega)).append ?_
    have hsecond := @copyLines_inside m h hS (m.lines - dev.backBufferStart) 0 dev.backBufferStart
      (by omega) (by omega)
    rwa [Nat.zero_mul] at hsecond
  · rw [if_neg (by simp [hb.contig, hS]), renderRowsAccesses, if_neg (lt_irrefl _),
      hb.dirtyStart, hb.maxHeight, Nat.zero_add, hlines, hleft]
    refine (hb.renderRows_inside h ?_ ?_).append (hb.renderRows_inside h ?_ ?_) <;>
      · intro i hi
        omega

theorem render_inside (h : m.Valid) : Inside m.size (renderAccesses dev) := by
  have hlt := h.lines_lt
  have hstart := hb.start
  have hend := hb.dirtyEnd
  unfold renderAccesses
  split
  · exact Inside.nil
  rw [hb.dirtyStart]
  by_cases hclean : dev.frontDirtyEnd ≤ 0
  · rw [if_pos hclean]
    exact Inside.nil
  rw [if_neg hclean]
  dsimp only
  rw [hb.maxHeight, Nat.zero_add, u32_of_lt (by omega), u32_of_lt (by omega),
    Nat.mod_eq_of_lt hstart]
  rcases Nat.lt_or_ge dev.frontDirtyEnd m.lines with hsome | hall
  · rw [hb.unmoved hsome, Nat.add_zero, Nat.mod_eq_of_lt hsome]
    exact hb.render_unmoved_inside h (by omega) hsome
  · rw [le_antisymm hend hall, Nat.add_mod_left, Nat.mod_eq_of_lt hstart]
    exact hb.render_wrapped_inside h

end Render

section Scroll

theorem scrollFront_inside (h : m.Valid) : Inside m.size (scrollFrontAccesses dev) := by
  have hheight := h.height
  have hlt := h.lines_lt
  have hpos := h.lines_pos
  have hle := @ModeInfo.Valid.lines_le m
  have hlast : Word.sub 32 m.lines 1 = m.lines - 1 := Word.sub_of_le (by omega) hpos
  unfold scrollFrontAccesses
  dsimp only
  rw [hb.contig, hb.mode, hb.maxHeight, fontHeight, charLine_eq h, hlast, h.rowBytes_eq,
    h.rowBytes_eq]
  by_cases hS : m.bytesPerScanline = m.rowBytes
  · have hall : (m.height - 13) * m.rowBytes + 13 * m.rowBytes = m.height * m.rowBytes := by
      rw [← Nat.add_mul, Nat.sub_add_cancel hheight]
    have hmoved : m.width * (m.height - 13) * m.pixelSize = (m.height - 13) * m.rowBytes := by
      unfold ModeInfo.rowBytes
      ring
    have hclear : m.width * 13 * m.pixelSize = 13 * m.rowBytes := by
      unfold ModeInfo.rowBytes
      ring
    have hsize : m.size .front = m.height * m.rowBytes := by rw [ModeInfo.size, hS]
    rw [if_pos (decide_eq_true hS), hmoved, hS]
    refine (Inside.copy ?_ ?_).append (memset_inside h hb.mode ?_ _)
    · omega
    · omega
    · omega
  · rw [if_neg (by simp [hS])]
    refine (Inside.loop fun i hi => Inside.loop fun j hj => Inside.copy ?_ ?_).append
      (Inside.loop fun j hj => memset_inside h hb.mode ?_ _)
    · exact row_end (by omega) h.rowBytes_le
    · rw [← Nat.add_mul]
      exact row_end (by omega) h.rowBytes_le
    · exact row_end (by omega) h.rowBytes_le

theorem scroll_inside (h : m.Valid) : Inside m.size (scrollAccesses dev) := by
  have hstart := hb.start
  have hle := @ModeInfo.Valid.lines_le m
  unfold scrollAccesses
  split
  · refine memset_inside h hb.mode ?_ _
    have hbits := h.bits_lt (by omega : dev.backBufferStart * 13 ≤ m.height)
    rw [hb.mode, fontHeight, u32_of_lt (by omega), h.rowBytes_eq, size_back h]
    calc dev.backBufferStart * 13 * m.width * m.pixelSize + m.width * 13 * m.pixelSize =
          13 * (dev.backBufferStart + 1) * m.rowBytes := by
          unfold ModeInfo.rowBytes
          ring
      _ ≤ 13 * m.lines * m.rowBytes := Nat.mul_le_mul_right _ (by omega)
  · exact hb.scrollFront_inside h

theorem nextLine_inside (h : m.Valid) : Inside m.size (nextLineAccesses dev) := by
  unfold nextLineAccesses
  split_ifs
  · exact hb.scroll_inside h
  · exact Inside.nil

end Scroll

section Write

variable (fontData : Buffer UInt8)

omit hb in
/-- A character at line `y`, column `X`, in rows of `S` bytes. -/
theorem writeGlyph_inside (h : m.Valid) (c : UInt8) {S y X : ℕ} {r : Region} (hS : m.rowBytes ≤ S)
    (hX : X < m.columns) (hy : y < m.lines) (hsize : 13 * m.lines * S ≤ m.size r) :
    Inside m.size (writeGlyphAccesses dev fontData c m.depth (y * 13 * S)
      (X * (8 * m.pixelSize)) S r) := by
  have hbyte := c.toNat_lt
  refine Inside.loop fun i hi => Inside.loop fun j hj => ?_
  rw [fontHeight] at hi ⊢
  refine (Inside.load ?_).append (Inside.store ?_)
  · rw [ModeInfo.size]
    omega
  · have hcolumn : X * (8 * m.pixelSize) + (j * m.pixelSize + m.pixelSize) ≤ S := by
      refine le_trans ?_ hS
      have hend := row_end (by unfold ModeInfo.columns at hX; omega : X * 8 + j < m.width)
        (le_refl m.pixelSize)
      calc X * (8 * m.pixelSize) + (j * m.pixelSize + m.pixelSize) =
            (X * 8 + j) * m.pixelSize + m.pixelSize := by ring
        _ ≤ m.width * m.pixelSize := hend
    rw [length_pixelBytes h]
    calc y * 13 * S + X * (8 * m.pixelSize) + i * S + j * (m.depth / 8) + m.pixelSize =
          (13 * y + i) * S + (X * (8 * m.pixelSize) + (j * m.pixelSize + m.pixelSize)) := by
          unfold ModeInfo.pixelSize
          ring
      _ ≤ 13 * m.lines * S := row_end (by omega) hcolumn
      _ ≤ m.size r := hsize

theorem writeCharDepth_inside (h : m.Valid) (c : UInt8) {elem : ℕ} (he : elem ∣ m.pixelSize) :
    Inside m.size (writeCharDepthAccesses dev fontData c m.depth elem
      (dev.curX * (8 * m.pixelSize))) := by
  have hlt := h.lines_lt
  have hle := @ModeInfo.Valid.lines_le m
  have hy := hb.curY
  have hstart := hb.start
  have hsize : m.width * (m.depth / 8) = m.rowBytes := rfl
  unfold writeCharDepthAccesses
  split
  · have hdvd : elem ∣ m.rowBytes := he.mul_left _
    have hring := Nat.mod_lt (dev.curY + dev.backBufferStart) h.lines_pos
    have hrow : (dev.curY + dev.backBufferStart) % m.lines * 13 * m.rowBytes < 2^31 :=
      h.row_bytes_lt (by omega)
    dsimp only
    rw [hb.mode, hb.maxHeight, fontHeight, hsize,
      u32_of_lt (by omega : dev.curY + dev.backBufferStart < 2^32), u32_of_lt (by omega),
      Nat.mul_div_cancel' (hdvd.mul_left _), Nat.mul_div_cancel' hdvd]
    exact writeGlyph_inside fontData h c le_rfl hb.curX hring (size_back h).ge
  · have hdvd : elem ∣ m.bytesPerScanline := he.trans h.multiple
    have hrow : dev.curY * 13 * m.bytesPerScanline < 2^31 := h.row_lt (by omega)
    dsimp only
    rw [hb.mode, fontHeight, u32_of_lt (by omega), Nat.mul_div_cancel' (hdvd.mul_left _),
      Nat.mul_div_cancel' hdvd]
    exact writeGlyph_inside fontData h c h.rowBytes_le hb.curX hy lines_le_front

theorem writer_inside (h : m.Valid) {w : Writer} (hw : w.depth = m.depth) (c : UInt8) :
    Inside m.size (w.accesses dev fontData c) := by
  obtain ⟨elem, he, heq⟩ := writer_apply_eq (writeCharDepthAccesses dev fontData c) h hb.curX hw
  have hcall : w.accesses dev fontData c =
      writeCharDepthAccesses dev fontData c m.depth elem (dev.curX * (8 * m.pixelSize)) := by
    rw [← heq]
    cases w <;> rfl
  rw [hcall]
  exact hb.writeCharDepth_inside fontData h c he

end Write

section Keeps

variable (fontData : Buffer UInt8)

omit hb in
/-- A writer changes nothing but a buffer. -/
theorem call_buffers (w : Writer) (c : UInt8) : ∃ front back,
    w.call fontData dev c = { dev with frontBuffer := front, backBuffer := back } := by
  have hdepth : ∀ depth elem column, ∃ front back,
      writeCharDepth fontData dev c depth elem column =
        { dev with frontBuffer := front, backBuffer := back } := by
    intro depth elem column
    unfold writeCharDepth
    cases hback : dev.backBuffer with
    | none => exact ⟨_, none, rfl⟩
    | some back => exact ⟨dev.frontBuffer, _, rfl⟩
  cases w <;> exact hdepth _ _ _

/-- Writing a character marks its line. -/
theorem lineDirty (h : m.Valid) (w : Writer) (c : UInt8) :
    Bounded m (fbLineDirty (w.call fontData dev c) dev.curY) := by
  have hlt := h.lines_lt
  have hy := hb.curY
  have hend := hb.dirtyEnd
  obtain ⟨front, back, hcall⟩ := @call_buffers dev fontData w c
  rw [hcall]
  refine { hb with dirtyStart := ?_, dirtyEnd := ?_, unmoved := ?_ }
  · simp [fbLineDirty, hb.dirtyStart]
  · simp only [fbLineDirty]
    rw [u32_of_lt (by omega)]
    split_ifs <;> omega
  · simp only [fbLineDirty]
    rw [u32_of_lt (by omega)]
    intro hsome
    refine hb.unmoved ?_
    split_ifs at hsome <;> omega

theorem scroll (h : m.Valid) : Bounded m (fbScroll dev) := by
  have hpos := h.lines_pos
  unfold fbScroll
  split
  · refine { hb with start := ?_, dirtyStart := rfl, dirtyEnd := ?_, unmoved := ?_ }
    · rw [hb.maxHeight]
      exact Nat.mod_lt _ hpos
    · exact hb.maxHeight.le
    · intro hsome
      rw [hb.maxHeight] at hsome
      exact absurd hsome (lt_irrefl _)
  · exact { hb with }

theorem atX {x : ℕ} (hx : x < m.columns) : Bounded m { dev with curX := x } :=
  { hb with curX := hx }

theorem nextLine (h : m.Valid) : Bounded m (nextLine dev) := by
  have hlast : Word.sub 32 m.lines 1 = m.lines - 1 :=
    Word.sub_of_le (by have := h.lines_lt; omega) h.lines_pos
  have hy := hb.curY
  unfold Fb.nextLine
  split_ifs with hend
  · exact hb.scroll h
  · rw [hb.maxHeight, hlast] at hend
    exact { hb with curY := by dsimp only; omega }

/-- One character leaves the device in its bounds. -/
theorem writeChar (h : m.Valid) (c : UInt8) :
    ∃ dev', fbWriteChar fontData dev c = some dev' ∧ Bounded m dev' := by
  have hcols := h.columns_pos
  have hx := hb.curX
  obtain ⟨w, hw, -⟩ := hb.writer
  have hline := hb.lineDirty fontData h w c
  unfold fbWriteChar
  split
  · exact ⟨_, rfl, (hb.nextLine h).atX hcols⟩
  · exact ⟨_, rfl, hb.atX hcols⟩
  · have hwidth : m.columns < 2^32 := by
      have := h.width_lt
      unfold ModeInfo.columns
      omega
    refine ⟨_, rfl, hb.atX ?_⟩
    rw [hb.maxWidth, Word.sub_of_le hwidth hcols]
    split_ifs <;> omega
  · rw [hw]
    refine ⟨_, rfl, ?_⟩
    dsimp only
    split_ifs with hend
    · exact (hline.atX hcols).nextLine h
    · refine hline.atX ?_
      have := hline.curX
      rw [hline.maxWidth] at hend
      omega

/-- The accesses of a character stay in the buffers. -/
theorem writeChar_inside (h : m.Valid) (c : UInt8) :
    Inside m.size (writeCharAccesses dev fontData c) := by
  obtain ⟨w, hw, hdepth⟩ := hb.writer
  have hline := hb.lineDirty fontData h w c
  unfold writeCharAccesses
  split
  · exact hb.nextLine_inside h
  · exact Inside.nil
  · exact Inside.nil
  · rw [hw]
    refine (hb.writer_inside fontData h hdepth c).append ?_
    dsimp only
    split_ifs with hend
    · exact (hline.atX h.columns_pos).nextLine_inside h
    · exact Inside.nil

theorem writeChars (h : m.Valid) (buf : List UInt8) :
    ∃ dev', writeChars fontData buf dev = some dev' ∧ Bounded m dev' := by
  induction buf generalizing dev with
  | nil => exact ⟨dev, rfl, hb⟩
  | cons c buf ih =>
    obtain ⟨dev₁, h₁, hb₁⟩ := hb.writeChar fontData h c
    obtain ⟨dev₂, h₂, hb₂⟩ := ih hb₁
    refine ⟨dev₂, ?_, hb₂⟩
    rw [Fb.writeChars, h₁]
    exact h₂

theorem render : Bounded m (fbRender dev) := by
  unfold fbRender
  split
  · exact hb
  · split_ifs
    · exact hb
    · exact { hb with }
    · exact { hb with }

theorem writes (h : m.Valid) (bufs : List (List UInt8)) :
    ∃ dev', fbWrites fontData bufs dev = some dev' ∧ Bounded m dev' := by
  induction bufs generalizing dev with
  | nil => exact ⟨dev, rfl, hb⟩
  | cons buf bufs ih =>
    obtain ⟨dev₁, h₁, hb₁⟩ := hb.writeChars fontData h buf
    obtain ⟨dev₂, h₂, hb₂⟩ := ih hb₁.render
    refine ⟨dev₂, ?_, hb₂⟩
    rw [fbWrites, fbWrite, h₁]
    exact h₂

end Keeps

end Bounded

section Init

variable (dev : Device) (m : ModeInfo) (malloc : ℕ → Option (Buffer UInt8)) (lfb : Buffer UInt8)

/-- The device that `fb_init` clears. -/
def configured : Device :=
  fbResetForegroundColor (fbResetBackgroundColor { dev with
    curMode := m
    maxWidth := m.width / fontWidth
    maxHeight := m.height / fontHeight
    backBuffer := malloc (u32 (m.width * (m.height / fontHeight) * fontHeight * m.depth) / 8)
    frontBuffer := lfb
    fbWriteCharDepth := match m.depth with
      | 8 => some .fbWriteChar8
      | 16 => some .fbWriteChar16
      | 24 => some .fbWriteChar24
      | 32 => some .fbWriteChar32
      | _ => dev.fbWriteCharDepth
    contigScanlines := m.bytesPerScanline = m.width * m.depth / 8 })

variable {m}

theorem contig_configured (h : m.Valid) : (configured dev m malloc lfb).contigScanlines =
    decide (m.bytesPerScanline = m.rowBytes) :=
  decide_eq_decide.mpr h.contig_iff

/-- `fb` is in static storage, so that `back_buffer_start` is zero before. -/
theorem fbInit_bounded (h : m.Valid) (hstatic : dev.backBufferStart = 0) :
    Bounded m (fbInit dev m malloc lfb) := by
  have hstart : (fbInit dev m malloc lfb).backBufferStart = 0 := by
    change (if _ then 0 else dev.backBufferStart) = 0
    rw [hstatic, ite_self]
  have hpos := h.lines_pos
  refine ⟨rfl, rfl, rfl, contig_configured dev malloc lfb h, ?_, h.columns_pos, hpos, ?_, rfl,
    Nat.zero_le _, fun _ => hstart⟩
  · rcases h.depth with hd | hd | hd | hd
    all_goals
      simp only [fbInit, fbClearBuffers, fbResetForegroundColor, fbResetBackgroundColor, hd]
      exact ⟨_, rfl, rfl⟩
  · rw [hstart]
    exact hpos

end Init

/-- After every character the cursor, the ring and the dirty lines are within the screen;
clearing, every next character and every rendering stay in the buffers. -/
theorem fbWrites_inside (fontData : Buffer UInt8) (m : ModeInfo) (h : m.Valid) (dev : Device)
    (hstatic : dev.backBufferStart = 0) (malloc : ℕ → Option (Buffer UInt8))
    (lfb : Buffer UInt8) :
    Stays fontData m (configured dev m malloc lfb) (clearAccesses (configured dev m malloc lfb))
      (fbInit dev m malloc lfb) ∧
    ∀ (bufs : List (List UInt8)) (buf : List UInt8), ∃ dev₁ dev₂,
      fbWrites fontData bufs (fbInit dev m malloc lfb) = some dev₁ ∧
      writeChars fontData buf dev₁ = some dev₂ ∧
      (dev₂.curX < dev₂.maxWidth ∧ dev₂.curY < dev₂.maxHeight ∧
        dev₂.backBufferStart < dev₂.maxHeight ∧ dev₂.frontDirtyStart ≤ dev₂.frontDirtyEnd ∧
        dev₂.frontDirtyEnd ≤ dev₂.maxHeight ∧ dev₂.maxHeight = m.height / 13) ∧
      (∀ c, ∃ dev₃, fbWriteChar fontData dev₂ c = some dev₃ ∧
        Stays fontData m dev₂ (writeCharAccesses dev₂ fontData c) dev₃) ∧
      Stays fontData m dev₂ (renderAccesses dev₂) (fbRender dev₂) := by
  refine ⟨⟨fbClearBuffers_run, Bounded.clear_inside h rfl rfl
    (contig_configured dev malloc lfb h)⟩, ?_⟩
  intro bufs buf
  have hinit := fbInit_bounded dev malloc lfb h hstatic
  obtain ⟨dev₁, h₁, hb₁⟩ := hinit.writes fontData h bufs
  obtain ⟨dev₂, h₂, hb₂⟩ := hb₁.writeChars fontData h buf
  refine ⟨dev₁, dev₂, h₁, h₂, ?_, ?_, fbRender_run, hb₂.render_inside h⟩
  · rw [hb₂.maxWidth, hb₂.maxHeight, hb₂.dirtyStart]
    exact ⟨hb₂.curX, hb₂.curY, hb₂.start, Nat.zero_le _, hb₂.dirtyEnd, rfl⟩
  · intro c
    obtain ⟨dev₃, h₃, -⟩ := hb₂.writeChar fontData h c
    exact ⟨dev₃, h₃, fbWriteChar_run h₃, hb₂.writeChar_inside fontData h c⟩

/-- The screen of 800 by 600 padded pixels, without a back buffer. -/
theorem padded800_inside :
    Inside padded800.size (clearAccesses (configured zeroDevice padded800 (fun _ => none)
      fun _ => 9)) ∧
    ∃ dev₁ dev₂, fbWrites (fun _ => 0x55) [[72, 105]]
        (fbInit zeroDevice padded800 (fun _ => none) fun _ => 9) = some dev₁ ∧
      writeChars (fun _ => 0x55) [10, 33] dev₁ = some dev₂ ∧ dev₂.curX < dev₂.maxWidth ∧
      Inside padded800.size (writeCharAccesses dev₂ (fun _ => 0x55) 33) := by
  obtain ⟨hclear, hrun⟩ := fbWrites_inside (fun _ => 0x55) padded800 padded800_valid zeroDevice rfl
    (fun _ => none) fun _ => 9
  obtain ⟨dev₁, dev₂, h₁, h₂, hin, hchar, -⟩ := hrun [[72, 105]] [10, 33]
  obtain ⟨_, -, hstays⟩ := hchar 33
  exact ⟨hclear.inside, dev₁, dev₂, h₁, h₂, hin.1, hstays.inside⟩

end Gandr.Fb
