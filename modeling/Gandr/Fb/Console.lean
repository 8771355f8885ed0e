import Gandr.Fb.Geometry

/-! What the console is for: a cursor and the bytes of the character lines,
where a character is put at the cursor and the lines move up when the cursor
leaves the last one. A device shows a console either from its ring of lines in
the back buffer or from the front buffer itself. -/

namespace Gandr.Fb

/-- Byte `c` of pixel row `j` of character line `q` is `text q j c`. -/
structure Console where
  curX : ℕ
  curY : ℕ
  text : ℕ → ℕ → ℕ → UInt8

/-- The bytes of a character: `glyph ch j k` for pixel row `j`. -/
abbrev Glyphs := UInt8 → ℕ → ℕ → UInt8

namespace Console

variable (m : ModeInfo) (glyph : Glyphs) (con : Console)

def scroll : Console :=
  { con with text := fun q j c => if q + 1 < m.lines then con.text (q + 1) j c else 0 }

def nextLine : Console :=
  if con.curY = m.lines - 1 then con.scroll m else { con with curY := con.curY + 1 }

def put (ch : UInt8) : Console :=
  { con with text := fun q j c =>
      if q = con.curY ∧ con.curX * (8 * m.pixelSize) ≤ c ∧
        c < con.curX * (8 * m.pixelSize) + 8 * m.pixelSize
      then glyph ch j (c - con.curX * (8 * m.pixelSize)) else con.text q j c }

/-- One character, with the effects of the control characters. -/
def writeChar (ch : UInt8) : Console :=
  match ch with
  | 10 => { con.nextLine m with curX := 0 }
  | 13 => { con with curX := 0 }
  | 9 => { con with curX := min (con.curX + (8 - con.curX % 8)) (m.columns - 1) }
  | ch =>
    let con := con.put m glyph ch
    if con.curX + 1 = m.columns then nextLine m { con with curX := 0 }
    else { con with curX := con.curX + 1 }

def write (buf : List UInt8) : Console := buf.foldl (writeChar m glyph) con

/-- An empty screen. -/
def blank : Console := ⟨0, 0, fun _ _ _ => 0⟩

end Console

/-- The bytes of a character in the mode and the foreground colour. -/
def glyphByte (fontData : ℕ → UInt8) (m : ModeInfo) (foreground : UInt32) : Glyphs :=
  fun ch j k =>
    (pixelBytes m.depth (glyphPixel fontData foreground 0 ch j (k / m.pixelSize))).getD
      (k % m.pixelSize) 0

/-- The byte that the device has for a place in the text. -/
def Device.shown (dev : Device) (q j c : ℕ) : UInt8 :=
  match dev.backBuffer with
  | some back =>
    back (cell dev.curMode.rowBytes ((dev.backBufferStart + q) % dev.maxHeight) j c)
  | none => dev.frontBuffer (cell dev.curMode.bytesPerScanline q j c)

/-- The ring and the dirty lines: lines that are not dirty are on the screen
already, and as long as there are any the ring has not moved. -/
structure Ring (dev : Device) : Prop where
  start : dev.backBufferStart < dev.maxHeight
  dirtyStart : dev.frontDirtyStart = 0
  dirtyEnd : dev.frontDirtyEnd ≤ dev.maxHeight
  unmoved : dev.frontDirtyEnd < dev.maxHeight → dev.backBufferStart = 0
  clean : ∀ q, dev.frontDirtyEnd ≤ q → q < dev.maxHeight → ∀ j < 13, ∀ c < dev.curMode.rowBytes,
    dev.frontBuffer (cell dev.curMode.bytesPerScanline q j c) = dev.shown q j c

def Writer.depth : Writer → ℕ
  | fbWriteChar8 => 8
  | fbWriteChar16 => 16
  | fbWriteChar24 => 24
  | fbWriteChar32 => 32

/-- The device shows `con`, and `base` around the text. -/
structure Shows (m : ModeInfo) (foreground : UInt32) (base : Buffer UInt8) (dev : Device)
    (con : Console) : Prop where
  mode : dev.curMode = m
  maxWidth : dev.maxWidth = m.columns
  maxHeight : dev.maxHeight = m.lines
  contig : dev.contigScanlines = decide (m.bytesPerScanline = m.rowBytes)
  writer : ∃ w, dev.fbWriteCharDepth = some w ∧ w.depth = m.depth
  foreground : dev.foreground = foreground
  background : dev.background = 0
  curX : dev.curX = con.curX
  curY : dev.curY = con.curY
  curX_lt : con.curX < m.columns
  curY_lt : con.curY < m.lines
  text : ∀ q < m.lines, ∀ j < 13, ∀ c < m.rowBytes, dev.shown q j c = con.text q j c
  around : ∀ x, ¬ Text m x → dev.frontBuffer x = base x
  ring : dev.backBuffer.isSome → Ring dev

section Writer

variable (fontData : ℕ → UInt8) {m : ModeInfo} {dev : Device}

/-- Where the writers store the bytes of a character. -/
theorem writeGlyph_writes (h : m.Valid) (hb : dev.background = 0) (ch : UInt8) (S y X : ℕ) :
    Buffer.Writes (writeGlyph fontData dev ch m.depth (y * 13 * S) X S) fun x v =>
      ∃ j < 13, ∃ k < 8 * m.pixelSize, x = cell S y j (X + k) ∧
        v = glyphByte fontData m dev.foreground ch j k := by
  have hpos := h.pixelSize_pos
  have hsize : m.depth / 8 = m.pixelSize := rfl
  have hlen := length_pixelBytes h
  unfold writeGlyph
  refine (Buffer.Writes.loop fun i _ => Buffer.Writes.loop fun j _ =>
    Buffer.Writes.store _ _).congr ?_
  intro x v
  simp only [fontHeight, hb, hsize]
  constructor
  · rintro ⟨i, hi, j, hj, k, rfl, hk⟩
    have hklt : k < m.pixelSize := hlen _ ▸ (List.getElem?_eq_some_iff.mp hk).1
    refine ⟨i, hi, j * m.pixelSize + k, ?_, ?_, ?_⟩
    · calc j * m.pixelSize + k < j * m.pixelSize + m.pixelSize := by omega
        _ = (j + 1) * m.pixelSize := by ring
        _ ≤ 8 * m.pixelSize := Nat.mul_le_mul_right _ hj
    · unfold cell
      ring
    · have hdiv : (j * m.pixelSize + k) / m.pixelSize = j := by
        rw [Nat.mul_comm, Nat.mul_add_div hpos, Nat.div_eq_of_lt hklt, Nat.add_zero]
      have hmod : (j * m.pixelSize + k) % m.pixelSize = k := by
        rw [Nat.mul_comm, Nat.mul_add_mod, Nat.mod_eq_of_lt hklt]
      rw [glyphByte, hdiv, hmod, List.getD_eq_getElem?_getD, hk]
      rfl
  · rintro ⟨j, hj, k, hk, rfl, rfl⟩
    have hmod := Nat.mod_lt k hpos
    refine ⟨j, hj, k / m.pixelSize, (Nat.div_lt_iff_lt_mul hpos).mpr hk, k % m.pixelSize, ?_, ?_⟩
    · have hk := Nat.div_add_mod k m.pixelSize
      unfold cell
      calc (13 * y + j) * S + (X + k) =
            (13 * y + j) * S + (X + (m.pixelSize * (k / m.pixelSize) + k % m.pixelSize)) := by
              rw [hk]
        _ = _ := by ring
    · rw [glyphByte, List.getD_eq_getElem?_getD,
        List.getElem?_eq_getElem (by rw [hlen]; exact hmod)]
      rfl

/-- Rounding to the elements of `dest` loses nothing, on the screen. -/
theorem writeCharDepth_front (h : m.Valid) (hm : dev.curMode = m) (hy : dev.curY < m.lines)
    (hback : dev.backBuffer = none) (ch : UInt8) {elem : ℕ} (he : elem ∣ m.pixelSize)
    (column : ℕ) :
    writeCharDepth fontData dev ch m.depth elem column =
      { dev with
        frontBuffer := writeGlyph fontData dev ch m.depth (dev.curY * 13 * m.bytesPerScanline)
          column m.bytesPerScanline dev.frontBuffer } := by
  have hle := @ModeInfo.Valid.lines_le m
  have hdvd : elem ∣ m.bytesPerScanline := he.trans h.multiple
  have hrow : dev.curY * 13 * m.bytesPerScanline < 2^31 := h.row_lt (by omega)
  unfold writeCharDepth
  simp only [hback, hm, fontHeight]
  rw [u32_of_lt (by omega), Nat.mul_div_cancel' (hdvd.mul_left _), Nat.mul_div_cancel' hdvd]

/-- The same in the ring. -/
theorem writeCharDepth_back (h : m.Valid) (hm : dev.curMode = m) (hM : dev.maxHeight = m.lines)
    (hy : dev.curY < m.lines) (hs : dev.backBufferStart < m.lines) {back : Buffer UInt8}
    (hback : dev.backBuffer = some back) (ch : UInt8) {elem : ℕ} (he : elem ∣ m.pixelSize)
    (column : ℕ) :
    writeCharDepth fontData dev ch m.depth elem column =
      { dev with
        backBuffer := some (writeGlyph fontData dev ch m.depth
          ((dev.backBufferStart + dev.curY) % m.lines * 13 * m.rowBytes) column m.rowBytes
          back) } := by
  have hlt := h.lines_lt
  have hle := @ModeInfo.Valid.lines_le m
  have hdvd : elem ∣ m.rowBytes := he.mul_left _
  have hring := Nat.mod_lt (dev.backBufferStart + dev.curY) h.lines_pos
  have hrow : (dev.backBufferStart + dev.curY) % m.lines * 13 * m.rowBytes < 2^31 :=
    h.row_bytes_lt (by omega)
  have hsize : m.width * (m.depth / 8) = m.rowBytes := rfl
  unfold writeCharDepth
  simp only [hback, hm, hM, fontHeight, hsize]
  rw [u32_of_lt (by omega : dev.curY + dev.backBufferStart < 2^32), Nat.add_comm dev.curY,
    u32_of_lt (by omega), Nat.mul_div_cancel' (hdvd.mul_left _), Nat.mul_div_cancel' hdvd]

omit fontData in
/-- The four writers differ in the size of a pixel only. -/
theorem writer_apply_eq {γ : Type} (F : ℕ → ℕ → ℕ → γ) (h : m.Valid) (hx : dev.curX < m.columns)
    {w : Writer} (hw : w.depth = m.depth) :
    ∃ elem, elem ∣ m.pixelSize ∧
      (match w with
        | .fbWriteChar8 => F 8 1 (u32 (dev.curX * fontWidth))
        | .fbWriteChar16 => F 16 2 (2 * u32 (dev.curX * fontWidth))
        | .fbWriteChar24 => F 24 1 (u32 (dev.curX * fontWidth * 3))
        | .fbWriteChar32 => F 32 4 (4 * u32 (dev.curX * fontWidth))) =
      F m.depth elem (dev.curX * (8 * m.pixelSize)) := by
  have hwidth : dev.curX * 8 + 8 ≤ m.width := by
    unfold ModeInfo.columns at hx
    omega
  have hlt := h.width_lt
  have hrow := h.row_bytes_lt (by have := h.height; omega : 1 ≤ m.height)
  have hdepth := h.depth_eq
  cases w with
  | fbWriteChar8 =>
    have hp : m.pixelSize = 1 := by simp only [Writer.depth] at hw; omega
    refine ⟨1, one_dvd _, ?_⟩
    simp only [fontWidth, ← hw, Writer.depth, hp]
    rw [u32_of_lt (by omega)]
  | fbWriteChar16 =>
    have hp : m.pixelSize = 2 := by simp only [Writer.depth] at hw; omega
    refine ⟨2, hp ▸ dvd_rfl, ?_⟩
    simp only [fontWidth, ← hw, Writer.depth, hp]
    rw [u32_of_lt (by omega)]
    congr 1
    omega
  | fbWriteChar24 =>
    have hp : m.pixelSize = 3 := by simp only [Writer.depth] at hw; omega
    refine ⟨1, one_dvd _, ?_⟩
    simp only [ModeInfo.rowBytes, hp] at hrow
    simp only [fontWidth, ← hw, Writer.depth, hp]
    rw [u32_of_lt (by omega)]
    congr 1
    omega
  | fbWriteChar32 =>
    have hp : m.pixelSize = 4 := by simp only [Writer.depth] at hw; omega
    refine ⟨4, hp ▸ dvd_rfl, ?_⟩
    simp only [fontWidth, ← hw, Writer.depth, hp]
    rw [u32_of_lt (by omega)]
    congr 1
    omega

theorem writer_call_eq (h : m.Valid) (hx : dev.curX < m.columns)
    {w : Writer} (hw : w.depth = m.depth) (ch : UInt8) :
    ∃ elem, elem ∣ m.pixelSize ∧ w.call fontData dev ch =
      writeCharDepth fontData dev ch m.depth elem (dev.curX * (8 * m.pixelSize)) := by
  obtain ⟨elem, he, heq⟩ := writer_apply_eq (writeCharDepth fontData dev ch) h hx hw
  refine ⟨elem, he, ?_⟩
  rw [← heq]
  cases w <;> rfl

/-- The text after a character was written at line `y`, column `X`. -/
theorem writeGlyph_cell (h : m.Valid) (hb : dev.background = 0) (ch : UInt8) {S y X : ℕ}
    (hX : X * (8 * m.pixelSize) + 8 * m.pixelSize ≤ m.rowBytes) (hS : m.rowBytes ≤ S)
    (b : Buffer UInt8) {q j c : ℕ} (hj : j < 13) (hc : c < m.rowBytes) :
    writeGlyph fontData dev ch m.depth (y * 13 * S) (X * (8 * m.pixelSize)) S b (cell S q j c) =
      if q = y ∧ X * (8 * m.pixelSize) ≤ c ∧ c < X * (8 * m.pixelSize) + 8 * m.pixelSize
      then glyphByte fontData m dev.foreground ch j (c - X * (8 * m.pixelSize))
      else b (cell S q j c) := by
  have hw := writeGlyph_writes fontData h hb ch S y (X * (8 * m.pixelSize))
  have hplace : ∀ j' k, j' < 13 → k < 8 * m.pixelSize →
      cell S q j c = cell S y j' (X * (8 * m.pixelSize) + k) →
      q = y ∧ j = j' ∧ c = X * (8 * m.pixelSize) + k :=
    fun j' k hj' hk heq => cell_inj (by omega) (by omega) hj hj' heq
  split_ifs with hin
  · obtain ⟨rfl, h₁, h₂⟩ := hin
    refine hw.value b ⟨j, hj, c - X * (8 * m.pixelSize), by omega, ?_, rfl⟩ ?_
    · rw [Nat.add_sub_cancel' h₁]
    · rintro v ⟨j', hj', k, hk, heq, rfl⟩
      obtain ⟨-, rfl, rfl⟩ := hplace j' k hj' hk heq
      rw [Nat.add_sub_cancel_left]
  · refine hw.frame b ?_
    rintro v ⟨j', hj', k, hk, heq, rfl⟩
    obtain ⟨rfl, rfl, rfl⟩ := hplace j' k hj' hk heq
    exact hin ⟨rfl, by omega, by omega⟩

theorem writeGlyph_around (h : m.Valid) (hb : dev.background = 0) (ch : UInt8) {y X x : ℕ}
    (hy : y < m.lines) (hX : X * (8 * m.pixelSize) + 8 * m.pixelSize ≤ m.rowBytes)
    (b : Buffer UInt8) (hx : ¬ Text m x) :
    writeGlyph fontData dev ch m.depth (y * 13 * m.bytesPerScanline) (X * (8 * m.pixelSize))
      m.bytesPerScanline b x = b x := by
  refine (writeGlyph_writes fontData h hb ch _ y _).frame b ?_
  rintro v ⟨j, hj, k, hk, rfl, rfl⟩
  exact hx ⟨y, hy, j, hj, _, by omega, rfl⟩

end Writer

theorem ring_inj {M a q q' : ℕ} (ha : a < M) (hq : q < M) (hq' : q' < M) :
    (a + q) % M = (a + q') % M ↔ q = q' := by
  constructor
  · intro h
    rcases Nat.lt_or_ge (a + q) M with h₁ | h₁ <;> rcases Nat.lt_or_ge (a + q') M with h₂ | h₂
    · rw [Nat.mod_eq_of_lt h₁, Nat.mod_eq_of_lt h₂] at h
      omega
    · rw [Nat.mod_eq_of_lt h₁, Nat.mod_eq_sub_mod h₂, Nat.mod_eq_of_lt (by omega)] at h
      omega
    · rw [Nat.mod_eq_sub_mod h₁, Nat.mod_eq_of_lt (by omega), Nat.mod_eq_of_lt h₂] at h
      omega
    · rw [Nat.mod_eq_sub_mod h₁, Nat.mod_eq_of_lt (by omega), Nat.mod_eq_sub_mod h₂,
        Nat.mod_eq_of_lt (by omega)] at h
      omega
  · rintro rfl
    rfl

section Put

variable (fontData : ℕ → UInt8) {m : ModeInfo} {fg : UInt32} {base : Buffer UInt8}
  {dev : Device} {con : Console}

theorem column_le (hx : con.curX < m.columns) :
    con.curX * (8 * m.pixelSize) + 8 * m.pixelSize ≤ m.rowBytes := by
  have hle : (con.curX + 1) * 8 ≤ m.width := by
    unfold ModeInfo.columns at hx
    omega
  calc con.curX * (8 * m.pixelSize) + 8 * m.pixelSize = (con.curX + 1) * 8 * m.pixelSize := by ring
    _ ≤ m.width * m.pixelSize := Nat.mul_le_mul_right _ hle

omit fontData in
/-- A new back buffer in which only the line `y` differs. -/
theorem fbLineDirty_ring (hs : Ring dev) (hM : dev.maxHeight < 2^31) {y : ℕ}
    (hy : y < dev.maxHeight) {back : Buffer UInt8}
    (hclean : ∀ q, q ≠ y → q < dev.maxHeight → ∀ j < 13, ∀ c < dev.curMode.rowBytes,
      back (cell dev.curMode.rowBytes ((dev.backBufferStart + q) % dev.maxHeight) j c) =
        dev.shown q j c) :
    Ring (fbLineDirty { dev with backBuffer := some back } y) := by
  have hend : (if dev.frontDirtyEnd ≤ y then u32 (y + 1) else dev.frontDirtyEnd) =
      max dev.frontDirtyEnd (y + 1) := by
    rw [u32_of_lt (by omega)]
    split_ifs <;> omega
  have hle := hs.dirtyEnd
  constructor
  case start => exact hs.start
  case dirtyStart => simp [fbLineDirty, hs.dirtyStart]
  case dirtyEnd =>
    simp only [fbLineDirty, hend]
    omega
  case unmoved =>
    simp only [fbLineDirty, hend]
    intro hlt
    exact hs.unmoved (by omega)
  case clean =>
    simp only [fbLineDirty, hend]
    intro q hq hlt j hj c hc
    rw [hs.clean q (by omega) hlt j hj c hc]
    exact (hclean q (by omega) hlt j hj c hc).symm

/-- Writing a character puts it into the text and marks its line. -/
theorem put_shows (h : m.Valid) (hs : Shows m fg base dev con) {w : Writer}
    (hw : w.depth = m.depth) (ch : UInt8) :
    Shows m fg base (fbLineDirty (w.call fontData dev ch) dev.curY)
      (con.put m (glyphByte fontData m fg) ch) := by
  have hx := hs.curX_lt
  have hy := hs.curY_lt
  have hcol := column_le hx
  obtain ⟨elem, he, hcall⟩ := writer_call_eq fontData h (hs.curX ▸ hx) hw ch
  rw [hcall]
  cases hback : dev.backBuffer with
  | none =>
    rw [writeCharDepth_front fontData h hs.mode (hs.curY ▸ hy) hback ch he]
    refine { hs with text := ?_, around := ?_, ring := ?_ }
    · intro q hq j hj c hc
      have hold := hs.text q hq j hj c hc
      simp only [Device.shown, fbLineDirty, hback, hs.mode, hs.curX, hs.curY] at hold ⊢
      rw [writeGlyph_cell fontData h hs.background ch hcol h.rowBytes_le _ hj hc, hold,
        hs.foreground]
      rfl
    · intro x hx
      simp only [fbLineDirty, hs.curX, hs.curY]
      rw [writeGlyph_around fontData h hs.background ch hy hcol _ hx]
      exact hs.around x hx
    · intro hsome
      simp [fbLineDirty, hback] at hsome
  | some back =>
    have hr := hs.ring (by simp [hback])
    have hstart : dev.backBufferStart < m.lines := hs.maxHeight ▸ hr.start
    have hnew : ∀ q < m.lines, ∀ j < 13, ∀ c < m.rowBytes,
        writeGlyph fontData dev ch m.depth
          ((dev.backBufferStart + con.curY) % m.lines * 13 * m.rowBytes)
          (con.curX * (8 * m.pixelSize)) m.rowBytes back
          (cell m.rowBytes ((dev.backBufferStart + q) % m.lines) j c) =
        (con.put m (glyphByte fontData m fg) ch).text q j c := by
      intro q hq j hj c hc
      have hold := hs.text q hq j hj c hc
      simp only [Device.shown, hback, hs.mode, hs.maxHeight] at hold
      rw [writeGlyph_cell fontData h hs.background ch hcol le_rfl _ hj hc, hold, hs.foreground]
      simp only [Console.put, ring_inj hstart hq hy]
    rw [writeCharDepth_back fontData h hs.mode hs.maxHeight (hs.curY ▸ hy) hstart hback ch he]
    refine { hs with text := ?_, around := hs.around, ring := ?_ }
    · intro q hq j hj c hc
      simp only [Device.shown, fbLineDirty, hs.mode, hs.maxHeight, hs.curX, hs.curY]
      exact hnew q hq j hj c hc
    · intro _
      refine fbLineDirty_ring hr (hs.maxHeight ▸ h.lines_lt)
        (by rw [hs.maxHeight, hs.curY]; exact hy) ?_
      intro q hne hq j hj c hc
      rw [hs.mode] at hc ⊢
      rw [hs.maxHeight] at hq ⊢
      rw [hs.curY] at hne ⊢
      rw [hs.curX, hnew q hq j hj c hc, hs.text q hq j hj c hc, Console.put]
      simp [hne]

end Put

end Gandr.Fb
