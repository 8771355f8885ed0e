import Gandr.Fb.Scroll

/-! The screen after every `fb_write`. A run of characters keeps the device
showing the console that reads the same characters, and rendering copies the
dirty lines of the ring to the screen, so that the front buffer holds the text
whether or not there is a back buffer. -/

namespace Gandr.Fb

section Char

variable (fontData : ℕ → UInt8) {m : ModeInfo} {fg : UInt32} {base : Buffer UInt8}
  {dev : Device} {con : Console}

omit fontData in
theorem Shows.atX (hs : Shows m fg base dev con) {x x' : ℕ} (hx : x = x') (hlt : x' < m.columns) :
    Shows m fg base { dev with curX := x } { con with curX := x' } :=
  { hs with curX := hx, curX_lt := hlt, ring := fun h => { hs.ring h with } }

omit fontData in
theorem Shows.atY (hs : Shows m fg base dev con) {y y' : ℕ} (hy : y = y') (hlt : y' < m.lines) :
    Shows m fg base { dev with curY := y } { con with curY := y' } :=
  { hs with curY := hy, curY_lt := hlt, ring := fun h => { hs.ring h with } }

omit fontData in
theorem nextLine_shows (h : m.Valid) (hbelow : BlankBelow m base)
    (hs : Shows m fg base dev con) : Shows m fg base (nextLine dev) (con.nextLine m) := by
  have hlt := h.lines_lt
  have hpos := h.lines_pos
  have hy := hs.curY_lt
  have hlast : dev.curY = Word.sub 32 dev.maxHeight 1 ↔ con.curY = m.lines - 1 := by
    rw [hs.maxHeight, hs.curY, Word.sub_of_le (by omega) hpos]
  unfold nextLine Console.nextLine
  by_cases hend : con.curY = m.lines - 1
  · rw [if_pos (hlast.mpr hend), if_pos hend]
    exact scroll_shows h hs hbelow
  · rw [if_neg (mt hlast.mp hend), if_neg hend]
    exact hs.atY (by rw [hs.curY]) (by omega)

/-- Characters that are written rather than obeyed. -/
theorem fbWriteChar_plain {ch : UInt8} (h₁ : ch ≠ 10) (h₂ : ch ≠ 13) (h₃ : ch ≠ 9) :
    fbWriteChar fontData dev ch = dev.fbWriteCharDepth.map fun w =>
      let dev := fbLineDirty (w.call fontData dev ch) dev.curY
      if dev.curX + 1 = dev.maxWidth then nextLine { dev with curX := 0 }
      else { dev with curX := dev.curX + 1 } := by
  unfold fbWriteChar
  split <;> first | contradiction | rfl

omit fontData in
theorem writeChar_plain (glyph : Glyphs) {ch : UInt8} (h₁ : ch ≠ 10) (h₂ : ch ≠ 13)
    (h₃ : ch ≠ 9) :
    con.writeChar m glyph ch =
      let con := con.put m glyph ch
      if con.curX + 1 = m.columns then Console.nextLine m { con with curX := 0 }
      else { con with curX := con.curX + 1 } := by
  unfold Console.writeChar
  split <;> first | contradiction | rfl

/-- One character. -/
theorem fbWriteChar_shows (h : m.Valid) (hbelow : BlankBelow m base)
    (hs : Shows m fg base dev con) (ch : UInt8) :
    ∃ dev', fbWriteChar fontData dev ch = some dev' ∧
      Shows m fg base dev' (con.writeChar m (glyphByte fontData m fg) ch) := by
  have hcols := h.columns_pos
  by_cases h₁ : ch = 10
  · subst h₁
    exact ⟨_, rfl, (nextLine_shows h hbelow hs).atX rfl hcols⟩
  by_cases h₂ : ch = 13
  · subst h₂
    exact ⟨_, rfl, hs.atX rfl hcols⟩
  by_cases h₃ : ch = 9
  · subst h₃
    have hwidth : m.columns < 2^32 := by
      have := h.width_lt
      unfold ModeInfo.columns
      omega
    refine ⟨_, rfl, ?_⟩
    have htab : (if dev.curX + (8 - dev.curX % 8) ≥ dev.maxWidth then Word.sub 32 dev.maxWidth 1
        else dev.curX + (8 - dev.curX % 8)) =
        min (con.curX + (8 - con.curX % 8)) (m.columns - 1) := by
      rw [hs.maxWidth, hs.curX, Word.sub_of_le hwidth hcols]
      split_ifs <;> omega
    exact hs.atX htab (by omega)
  · obtain ⟨w, hw, hdepth⟩ := hs.writer
    have hput := put_shows fontData h hs hdepth ch
    rw [fbWriteChar_plain fontData h₁ h₂ h₃, writeChar_plain _ h₁ h₂ h₃, hw]
    refine ⟨_, rfl, ?_⟩
    have hcol := hput.curX_lt
    have hend : (fbLineDirty (w.call fontData dev ch) dev.curY).curX + 1 =
        (fbLineDirty (w.call fontData dev ch) dev.curY).maxWidth ↔
        (con.put m (glyphByte fontData m fg) ch).curX + 1 = m.columns := by
      rw [hput.curX, hput.maxWidth]
    dsimp only
    by_cases hlast : (con.put m (glyphByte fontData m fg) ch).curX + 1 = m.columns
    · rw [if_pos (hend.mpr hlast), if_pos hlast]
      exact nextLine_shows h hbelow (hput.atX rfl hcols)
    · rw [if_neg (mt hend.mp hlast), if_neg hlast]
      exact hput.atX (by rw [hput.curX]) (by omega)

/-- The characters of a buffer. -/
theorem writeChars_shows (h : m.Valid) (hbelow : BlankBelow m base) (buf : List UInt8)
    (hs : Shows m fg base dev con) :
    ∃ dev', writeChars fontData buf dev = some dev' ∧
      Shows m fg base dev' (con.write m (glyphByte fontData m fg) buf) := by
  induction buf generalizing dev con with
  | nil => exact ⟨dev, rfl, hs⟩
  | cons ch buf ih =>
    obtain ⟨dev₁, h₁, hs₁⟩ := fbWriteChar_shows fontData h hbelow hs ch
    obtain ⟨dev₂, h₂, hs₂⟩ := ih hs₁
    refine ⟨dev₂, ?_, hs₂⟩
    rw [writeChars, h₁]
    exact h₂

end Char

/-- Going around a ring of `M` lines from line `a`. -/
theorem ring_split {M a : ℕ} (ha : a < M) (P : ℕ → ℕ → Prop) :
    (∃ q < M, P q ((a + q) % M)) ↔ (∃ q < M - a, P q (a + q)) ∨ ∃ q < a, P (M - a + q) q := by
  have hfirst : ∀ q < M - a, (a + q) % M = a + q := fun q hq => Nat.mod_eq_of_lt (by omega)
  have hsecond : ∀ q < a, (a + (M - a + q)) % M = q := by
    intro q hq
    rw [show a + (M - a + q) = M + q by omega, Nat.add_mod_left, Nat.mod_eq_of_lt (by omega)]
  constructor
  · rintro ⟨q, hq, hP⟩
    by_cases hlt : q < M - a
    · exact .inl ⟨q, hlt, hfirst q hlt ▸ hP⟩
    · refine .inr ⟨q - (M - a), by omega, ?_⟩
      have heq := hsecond (q - (M - a)) (by omega)
      rw [show M - a + (q - (M - a)) = q by omega] at heq ⊢
      exact heq ▸ hP
  · rintro (⟨q, hq, hP⟩ | ⟨q, hq, hP⟩)
    · exact ⟨q, by omega, (hfirst q hq).symm ▸ hP⟩
    · exact ⟨M - a + q, by omega, (hsecond q hq).symm ▸ hP⟩

section Render

variable {m : ModeInfo} {fg : UInt32} {base : Buffer UInt8} {dev : Device} {con : Console}

/-- `n` lines from line `s` of the back buffer, to the lines from `d` on. -/
def Copies (m : ModeInfo) (back : Buffer UInt8) (d s n : ℕ) (x : ℕ) (v : UInt8) : Prop :=
  ∃ q < n, ∃ j < 13, ∃ c < m.rowBytes,
    x = cell m.bytesPerScanline (d + q) j c ∧ v = back (cell m.rowBytes (s + q) j c)

theorem memcpy_copies (h : m.Valid) (hS : m.bytesPerScanline = m.rowBytes)
    (back : Buffer UInt8) (d s n : ℕ) :
    Buffer.Writes (fun b => b.memcpy (d * (13 * m.bytesPerScanline)) back
      (s * (13 * m.bytesPerScanline)) (n * (13 * m.bytesPerScanline))) (Copies m back d s n) := by
  refine (Buffer.Writes.memcpy _ _ _ _).congr ?_
  intro x v
  unfold Copies
  rw [hS]
  simp only [lt_lines_iff h.rowBytes_pos, cell_add]
  constructor
  · rintro ⟨k, ⟨q, hq, j, hj, c, hc, rfl⟩, rfl, rfl⟩
    exact ⟨q, hq, j, hj, c, hc, rfl, rfl⟩
  · rintro ⟨q, hq, j, hj, c, hc, rfl, rfl⟩
    exact ⟨_, ⟨q, hq, j, hj, c, hc, rfl⟩, rfl, rfl⟩

theorem rows_copies (h : m.Valid) (hm : dev.curMode = m) (back : Buffer UInt8) {d s n : ℕ}
    (hn : d + n ≤ m.lines) :
    Buffer.Writes (Buffer.loop n fun i => Buffer.loop 13 fun j =>
      renderRow dev back ((d + i) * 13 + j) ((s + i) * 13 + j)) (Copies m back d s n) := by
  have hle := @ModeInfo.Valid.lines_le m
  refine Buffer.Writes.loop fun i hi => Buffer.Writes.loop fun j hj => ?_
  have hrow : ((d + i) * 13 + j) * m.bytesPerScanline < 2^31 := h.row_lt (by omega)
  unfold renderRow
  rw [hm, h.rowBytes_eq m.width, u32_of_lt (by omega), Nat.mul_comm (d + i), Nat.mul_comm (s + i)]
  exact Buffer.Writes.memcpy _ _ _ _

/-- The dirty lines of the ring, in the order of the screen. -/
def Rendered (m : ModeInfo) (dev : Device) (back : Buffer UInt8) (x : ℕ) (v : UInt8) : Prop :=
  ∃ q < dev.frontDirtyEnd, ∃ j < 13, ∃ c < m.rowBytes, x = cell m.bytesPerScanline q j c ∧
    v = back (cell m.rowBytes ((dev.backBufferStart + q) % m.lines) j c)

/-- Both branches for a ring that has not moved copy the dirty lines. -/
theorem render_unmoved (h : m.Valid) (hs : Shows m fg base dev con) {back : Buffer UInt8}
    (hr : Ring dev) (hpos : 0 < dev.frontDirtyEnd) (hlt : dev.frontDirtyEnd < m.lines) :
    ∃ f, (if dev.contigScanlines then renderContig dev back 0 dev.frontDirtyEnd
        else renderRows dev back 0 dev.frontDirtyEnd) = f dev.frontBuffer ∧
      Buffer.Writes f (Rendered m dev back) := by
  have hzero : dev.backBufferStart = 0 := hr.unmoved (hs.maxHeight ▸ hlt)
  have hcopies : ∀ x v, Copies m back 0 0 dev.frontDirtyEnd x v ↔ Rendered m dev back x v := by
    intro x v
    refine exists_congr fun q => and_congr_right fun hq => ?_
    rw [hzero, Nat.zero_add, Nat.mod_eq_of_lt (by omega)]
  by_cases hS : m.bytesPerScanline = m.rowBytes
  · have hline : u32 (13 * m.bytesPerScanline) = 13 * m.bytesPerScanline :=
      u32_of_lt (by have := h.row_lt h.height; omega)
    refine ⟨_, ?_, (memcpy_copies h hS back 0 0 dev.frontDirtyEnd).congr hcopies⟩
    simp [renderContig, hs.contig, hS, hs.mode, fontHeight, hS ▸ hline, hpos, hr.dirtyStart]
  · refine ⟨_, ?_, (rows_copies h hs.mode back (by omega)).congr hcopies⟩
    simp [renderRows, hs.contig, hS, fontHeight, hpos, hr.dirtyStart]

/-- Where all lines are dirty, the ring is copied in two parts. -/
theorem render_wrapped (h : m.Valid) (hs : Shows m fg base dev con) {back : Buffer UInt8}
    (hr : Ring dev) (hall : dev.frontDirtyEnd = m.lines) :
    ∃ f, (if dev.contigScanlines
        then renderContig dev back dev.backBufferStart dev.backBufferStart
        else renderRows dev back dev.backBufferStart dev.backBufferStart) = f dev.frontBuffer ∧
      Buffer.Writes f (Rendered m dev back) := by
  have hlt := h.lines_lt
  have hstart : dev.backBufferStart < m.lines := hs.maxHeight ▸ hr.start
  have hleft : Word.sub 32 m.lines dev.backBufferStart = m.lines - dev.backBufferStart :=
    Word.sub_of_le (by omega) hstart.le
  have hlines : u32 m.lines = m.lines := u32_of_lt (by omega)
  have hcopies : ∀ x v, Copies m back 0 dev.backBufferStart (m.lines - dev.backBufferStart) x v ∨
      Copies m back (m.lines - dev.backBufferStart) 0 dev.backBufferStart x v ↔
      Rendered m dev back x v := by
    intro x v
    unfold Copies Rendered
    rw [hall, ring_split hstart fun q q' => ∃ j < 13, ∃ c < m.rowBytes,
      x = cell m.bytesPerScanline q j c ∧ v = back (cell m.rowBytes q' j c)]
    simp only [Nat.zero_add]
  by_cases hS : m.bytesPerScanline = m.rowBytes
  · have hline : u32 (13 * m.bytesPerScanline) = 13 * m.bytesPerScanline :=
      u32_of_lt (by have := h.row_lt h.height; omega)
    refine ⟨_, ?_, ((memcpy_copies h hS back _ 0 _).comp
      (memcpy_copies h hS back 0 _ _)).congr hcopies⟩
    simp [renderContig, hs.contig, hS, hs.mode, hs.maxHeight, fontHeight, hS ▸ hline,
      hr.dirtyStart, hleft, hlines]
  · refine ⟨_, ?_, ((rows_copies h hs.mode back (by omega)).comp
      (rows_copies h hs.mode back (by omega))).congr hcopies⟩
    simp [renderRows, hs.contig, hS, hs.maxHeight, fontHeight, hr.dirtyStart, hleft, hlines]

/-- `fb_render` copies the dirty lines and nothing else. -/
theorem fbRender_writes (h : m.Valid) (hs : Shows m fg base dev con) {back : Buffer UInt8}
    (hback : dev.backBuffer = some back) (hpos : 0 < dev.frontDirtyEnd) :
    ∃ f, fbRender dev = { dev with frontBuffer := f dev.frontBuffer } ∧
      Buffer.Writes f (Rendered m dev back) := by
  have hr := hs.ring (by simp [hback])
  have hlt := h.lines_lt
  have hstart : dev.backBufferStart < m.lines := hs.maxHeight ▸ hr.start
  have hend : dev.frontDirtyEnd ≤ m.lines := hs.maxHeight ▸ hr.dirtyEnd
  have hdirty : ¬ dev.frontDirtyEnd ≤ dev.frontDirtyStart := by
    rw [hr.dirtyStart]
    omega
  have hfrom : u32 (dev.frontDirtyStart + dev.backBufferStart) % dev.maxHeight =
      dev.backBufferStart := by
    rw [hr.dirtyStart, Nat.zero_add, u32_of_lt (by omega), hs.maxHeight, Nat.mod_eq_of_lt hstart]
  have hto : u32 (dev.frontDirtyEnd + dev.backBufferStart) % dev.maxHeight =
      (dev.frontDirtyEnd + dev.backBufferStart) % m.lines := by
    rw [u32_of_lt (by omega), hs.maxHeight]
  have hrender : fbRender dev = { dev with
      frontBuffer := if dev.contigScanlines
        then renderContig dev back dev.backBufferStart
          ((dev.frontDirtyEnd + dev.backBufferStart) % m.lines)
        else renderRows dev back dev.backBufferStart
          ((dev.frontDirtyEnd + dev.backBufferStart) % m.lines) } := by
    simp only [fbRender, hback]
    rw [if_neg hdirty, hfrom, hto]
  rw [hrender]
  rcases Nat.lt_or_ge dev.frontDirtyEnd m.lines with hlt | hge
  · have hzero : dev.backBufferStart = 0 := hr.unmoved (hs.maxHeight ▸ hlt)
    obtain ⟨f, hf, hw⟩ := render_unmoved h hs hr hpos hlt
    refine ⟨f, ?_, hw⟩
    rw [← hf, hzero, Nat.add_zero, Nat.mod_eq_of_lt hlt]
  · have hall := le_antisymm hend hge
    obtain ⟨f, hf, hw⟩ := render_wrapped h hs hr hall
    refine ⟨f, ?_, hw⟩
    rw [← hf, hall, Nat.add_mod_left, Nat.mod_eq_of_lt hstart]

/-- After rendering the screen shows the text. -/
theorem fbRender_shows (h : m.Valid) (hs : Shows m fg base dev con) :
    Shows m fg base (fbRender dev) con ∧
    ∀ q < m.lines, ∀ j < 13, ∀ c < m.rowBytes,
      (fbRender dev).frontBuffer (cell m.bytesPerScanline q j c) = con.text q j c := by
  have hW := h.rowBytes_le
  cases hback : dev.backBuffer with
  | none =>
    have hsame : fbRender dev = dev := by simp [fbRender, hback]
    rw [hsame]
    refine ⟨hs, fun q hq j hj c hc => ?_⟩
    rw [← hs.text q hq j hj c hc]
    simp [Device.shown, hback, hs.mode]
  | some back =>
    have hr := hs.ring (by simp [hback])
    have hshown : ∀ q < m.lines, ∀ j < 13, ∀ c < m.rowBytes,
        back (cell m.rowBytes ((dev.backBufferStart + q) % m.lines) j c) = con.text q j c := by
      intro q hq j hj c hc
      rw [← hs.text q hq j hj c hc]
      simp [Device.shown, hback, hs.mode, hs.maxHeight]
    have hclean : ∀ q, dev.frontDirtyEnd ≤ q → q < m.lines → ∀ j < 13, ∀ c < m.rowBytes,
        dev.frontBuffer (cell m.bytesPerScanline q j c) = con.text q j c := by
      intro q h₁ h₂ j hj c hc
      rw [← hs.text q h₂ j hj c hc]
      have := hr.clean q h₁ (hs.maxHeight ▸ h₂) j hj c (by rw [hs.mode]; exact hc)
      rwa [hs.mode] at this
    rcases Nat.eq_zero_or_pos dev.frontDirtyEnd with hzero | hpos
    · have hsame : fbRender dev = dev := by simp [fbRender, hback, hzero]
      rw [hsame]
      exact ⟨hs, fun q hq => hclean q (by omega) hq⟩
    · obtain ⟨f, hf, hw⟩ := fbRender_writes h hs hback hpos
      have hfront : ∀ q < m.lines, ∀ j < 13, ∀ c < m.rowBytes,
          f dev.frontBuffer (cell m.bytesPerScanline q j c) = con.text q j c := by
        intro q hq j hj c hc
        have hone : ∀ q' j' c', j' < 13 → c' < m.rowBytes →
            cell m.bytesPerScanline q j c = cell m.bytesPerScanline q' j' c' →
            q = q' ∧ j = j' ∧ c = c' :=
          fun q' j' c' hj' hc' heq => cell_inj (by omega) (by omega) hj hj' heq
        rcases Nat.lt_or_ge q dev.frontDirtyEnd with hd | hd
        · refine hw.value _ ⟨q, hd, j, hj, c, hc, rfl, (hshown q hq j hj c hc).symm⟩ ?_
          rintro v ⟨q', hq', j', hj', c', hc', heq, rfl⟩
          obtain ⟨rfl, rfl, rfl⟩ := hone q' j' c' hj' hc' heq
          exact hshown q hq j hj c hc
        · rw [hw.frame _ ?_]
          · exact hclean q hd hq j hj c hc
          · rintro v ⟨q', hq', j', hj', c', hc', heq, rfl⟩
            have := (hone q' j' c' hj' hc' heq).1
            omega
      rw [hf]
      refine ⟨{ hs with text := ?_, around := ?_, ring := ?_ }, hfront⟩
      · intro q hq j hj c hc
        rw [← hs.text q hq j hj c hc]
        simp only [Device.shown, hback]
      · intro x hx
        refine (hw.frame _ ?_).trans (hs.around x hx)
        rintro v ⟨q, hq, j, hj, c, hc, rfl, rfl⟩
        have := hs.maxHeight ▸ hr.dirtyEnd
        exact hx ⟨q, by omega, j, hj, c, hc, rfl⟩
      · intro _
        refine { hr with clean := ?_ }
        simp only [Device.shown, hback, hs.mode, hs.maxHeight]
        intro q _ hq j hj c hc
        rw [hfront q hq j hj c hc, hshown q hq j hj c hc]

end Render

section Run

variable (fontData : ℕ → UInt8) {m : ModeInfo} {fg : UInt32} {base : Buffer UInt8}
  {dev : Device} {con : Console}

/-- A sequence of `fb_write` calls. -/
def fbWrites : List (List UInt8) → Device → Option Device
  | [], dev => some dev
  | buf :: bufs, dev => (fbWrite fontData dev buf).bind fun r => fbWrites bufs r.1

/-- On the screen, too. -/
structure Displays (m : ModeInfo) (fg : UInt32) (base : Buffer UInt8) (dev : Device)
    (con : Console) : Prop extends Shows m fg base dev con where
  front : ∀ q < m.lines, ∀ j < 13, ∀ c < m.rowBytes,
    dev.frontBuffer (cell m.bytesPerScanline q j c) = con.text q j c

theorem fbWrite_displays (h : m.Valid) (hbelow : BlankBelow m base) (buf : List UInt8)
    (hs : Shows m fg base dev con) :
    ∃ dev', fbWrite fontData dev buf = some (dev', buf.length) ∧
      Displays m fg base dev' (con.write m (glyphByte fontData m fg) buf) := by
  obtain ⟨dev₁, h₁, hs₁⟩ := writeChars_shows fontData h hbelow buf hs
  obtain ⟨hs₂, hfront⟩ := fbRender_shows h hs₁
  refine ⟨fbRender dev₁, ?_, hs₂, hfront⟩
  rw [fbWrite, h₁]
  rfl

/-- A run of writes displays what the console reads in all of them. -/
theorem fbWrites_displays (h : m.Valid) (hbelow : BlankBelow m base) (bufs : List (List UInt8))
    (hs : Displays m fg base dev con) :
    ∃ dev', fbWrites fontData bufs dev = some dev' ∧
      Displays m fg base dev' (con.write m (glyphByte fontData m fg) bufs.flatten) := by
  induction bufs generalizing dev con with
  | nil => exact ⟨dev, rfl, hs⟩
  | cons buf bufs ih =>
    obtain ⟨dev₁, h₁, hs₁⟩ := fbWrite_displays fontData h hbelow buf hs.toShows
    obtain ⟨dev₂, h₂, hs₂⟩ := ih hs₁
    refine ⟨dev₂, ?_, ?_⟩
    · rw [fbWrites, h₁]
      exact h₂
    · rw [List.flatten_cons, Console.write, List.foldl_append]
      exact hs₂

end Run

section Init

variable {m : ModeInfo} (dev : Device) (malloc : ℕ → Option (Buffer UInt8)) (lfb : Buffer UInt8)

/-- The front buffer that `fb_init` leaves, for a device of the mode. -/
def clearedFront (m : ModeInfo) (lfb : Buffer UInt8) (dev : Device) : Buffer UInt8 :=
  if m.bytesPerScanline = m.width * m.depth / 8 then
    memsetPixel dev 0 0 (m.width * m.height) lfb
  else
    lfb.loop m.height fun i => memsetPixel dev (u32 (i * m.bytesPerScanline)) 0 m.width

theorem clearedFront_zero (h : m.Valid) (hm : dev.curMode = m) {r c : ℕ} (hr : r < m.height)
    (hc : c < m.rowBytes) : clearedFront m lfb dev (r * m.bytesPerScanline + c) = 0 := by
  unfold clearedFront
  split_ifs with hS
  · rw [h.rowBytes_eq] at hS
    have hw := memsetPixel_writes h hm 0 (m.width * m.height)
    refine hw.value lfb ⟨r * m.bytesPerScanline + c, ?_, (Nat.zero_add _).symm, rfl⟩ ?_
    · calc r * m.bytesPerScanline + c < r * m.rowBytes + m.rowBytes := by
            rw [hS]
            exact Nat.add_lt_add_left hc _
        _ = (r + 1) * m.rowBytes := by ring
        _ ≤ m.height * m.rowBytes := Nat.mul_le_mul_right _ hr
        _ = m.width * m.height * m.pixelSize := by
            unfold ModeInfo.rowBytes
            ring
    · rintro v ⟨-, -, -, rfl⟩
      rfl
  · have hw : Buffer.Writes (Buffer.loop m.height fun i =>
        memsetPixel dev (u32 (i * m.bytesPerScanline)) 0 m.width) _ :=
      Buffer.Writes.loop fun i _ => memsetPixel_writes h hm _ _
    refine hw.value lfb ⟨r, hr, c, hc, ?_, rfl⟩ ?_
    · rw [u32_of_lt (by have := h.row_lt hr.le; omega)]
    · rintro v ⟨-, -, -, -, -, rfl⟩
      rfl

theorem blankBelow_cleared (h : m.Valid) (hm : dev.curMode = m) :
    BlankBelow m (clearedFront m lfb dev) := by
  intro hS x _ hx
  have hr : x / m.rowBytes < m.height := (Nat.div_lt_iff_lt_mul h.rowBytes_pos).mpr hx
  have hzero := clearedFront_zero dev lfb h hm hr (Nat.mod_lt x h.rowBytes_pos)
  rw [hS, Nat.mul_comm, Nat.div_add_mod] at hzero
  exact hzero

theorem fbInit_displays (h : m.Valid) :
    Displays m (fbGetPixelColor { dev with curMode := m } 0xFF 0xFF 0xFF)
      (clearedFront m lfb { dev with curMode := m }) (fbInit dev m malloc lfb) .blank := by
  have hle := @ModeInfo.Valid.lines_le m
  have hpos := h.lines_pos
  have hfront : (fbInit dev m malloc lfb).frontBuffer =
      clearedFront m lfb { dev with curMode := m } := by
    simp only [fbInit, fbClearBuffers, fbResetForegroundColor, fbResetBackgroundColor,
      clearedFront, decide_eq_true_eq]
    split_ifs <;> rfl
  have hback : (fbInit dev m malloc lfb).backBuffer =
      (malloc (u32 (m.width * (m.height / fontHeight) * fontHeight * m.depth) / 8)).map
        (memsetPixel { dev with curMode := m } 0 0 (u32 (m.width * m.lines * 13))) := rfl
  have hstart : (fbInit dev m malloc lfb).backBuffer.isSome →
      (fbInit dev m malloc lfb).backBufferStart = 0 := by
    intro hsome
    rw [hback, Option.isSome_map] at hsome
    exact if_pos hsome
  have htext : ∀ q < m.lines, ∀ j < 13, ∀ c < m.rowBytes,
      (fbInit dev m malloc lfb).frontBuffer (cell m.bytesPerScanline q j c) = 0 := by
    intro q hq j hj c hc
    rw [hfront]
    exact clearedFront_zero _ lfb h rfl (by omega) hc
  have hshown : ∀ q < m.lines, ∀ j < 13, ∀ c < m.rowBytes,
      (fbInit dev m malloc lfb).shown q j c = 0 := by
    intro q hq j hj c hc
    cases hsome : (fbInit dev m malloc lfb).backBuffer with
    | none =>
      simp only [Device.shown, hsome]
      exact htext q hq j hj c hc
    | some back =>
      simp only [Device.shown, hsome]
      rw [hstart (by rw [hsome]; rfl), Nat.zero_add]
      change back (cell m.rowBytes (q % m.lines) j c) = 0
      rw [hback] at hsome
      obtain ⟨b, -, rfl⟩ := Option.map_eq_some_iff.mp hsome
      have hsize : u32 (m.width * m.lines * 13) * m.pixelSize = m.lines * (13 * m.rowBytes) := by
        have hlt : m.width * m.lines * 13 < 2^32 := by
          have hbits := h.bits_lt hle
          have hdepth : 13 * m.lines * m.width ≤ 13 * m.lines * m.width * m.depth :=
            Nat.le_mul_of_pos_right _ (by have := h.depth; omega)
          calc m.width * m.lines * 13 = 13 * m.lines * m.width := by ring
            _ < 2^32 := by omega
        rw [u32_of_lt hlt, ModeInfo.rowBytes]
        ring
      have hw := memsetPixel_writes h (rfl : ({ dev with curMode := m } : Device).curMode = m) 0
        (u32 (m.width * m.lines * 13))
      rw [hsize] at hw
      refine hw.value b ⟨_, ?_, (Nat.zero_add _).symm, rfl⟩ ?_
      · exact (lt_lines_iff h.rowBytes_pos).mpr ⟨_, Nat.mod_lt q hpos, j, hj, c, hc, rfl⟩
      · rintro v ⟨-, -, -, rfl⟩
        rfl
  refine ⟨⟨rfl, rfl, rfl, ?_, ?_, rfl, rfl, rfl, rfl, h.columns_pos, hpos, hshown, ?_, ?_⟩, htext⟩
  · change decide _ = decide _
    simp only [h.contig_iff]
  · rcases h.depth with hd | hd | hd | hd
    all_goals
      simp only [fbInit, fbClearBuffers, fbResetForegroundColor, fbResetBackgroundColor, hd]
      exact ⟨_, rfl, rfl⟩
  · intro x _
    rw [hfront]
  · intro hsome
    refine ⟨?_, rfl, Nat.zero_le _, fun _ => hstart hsome, ?_⟩
    · rw [hstart hsome]
      exact hpos
    · intro q _ hq j hj c hc
      exact (htext q hq j hj c hc).trans (hshown q hq j hj c hc).symm

end Init

section Buffered

variable (fontData : ℕ → UInt8) {dev dev' : Device}

theorem isSome_nextLine : (nextLine dev).backBuffer.isSome = dev.backBuffer.isSome := by
  unfold nextLine fbScroll
  split_ifs
  · cases hback : dev.backBuffer <;> rfl
  · rfl

theorem isSome_writeCharDepth (ch : UInt8) (depth elem column : ℕ) :
    (writeCharDepth fontData dev ch depth elem column).backBuffer.isSome =
      dev.backBuffer.isSome := by
  unfold writeCharDepth
  cases dev.backBuffer <;> rfl

theorem isSome_call (w : Writer) (ch : UInt8) :
    (w.call fontData dev ch).backBuffer.isSome = dev.backBuffer.isSome := by
  cases w <;> exact isSome_writeCharDepth fontData ch _ _ _

theorem isSome_fbWriteChar {ch : UInt8} (h : fbWriteChar fontData dev ch = some dev') :
    dev'.backBuffer.isSome = dev.backBuffer.isSome := by
  unfold fbWriteChar at h
  split at h
  · cases h
    exact isSome_nextLine
  · cases h
    rfl
  · cases h
    rfl
  · obtain ⟨w, -, rfl⟩ := Option.map_eq_some_iff.mp h
    dsimp only
    split_ifs
    · exact isSome_nextLine.trans (isSome_call fontData w _)
    · exact isSome_call fontData w _

theorem isSome_fbRender : (fbRender dev).backBuffer.isSome = dev.backBuffer.isSome := by
  unfold fbRender
  cases hback : dev.backBuffer with
  | none => simp [hback]
  | some back =>
    by_cases hdirty : dev.frontDirtyEnd ≤ dev.frontDirtyStart
    · simp [hdirty, hback]
    · simp [hdirty]

/-- A run neither drops nor takes a back buffer. -/
theorem isSome_fbWrites {bufs : List (List UInt8)} (h : fbWrites fontData bufs dev = some dev') :
    dev'.backBuffer.isSome = dev.backBuffer.isSome := by
  have hchars : ∀ (buf : List UInt8) (dev dev' : Device), writeChars fontData buf dev = some dev' →
      dev'.backBuffer.isSome = dev.backBuffer.isSome := by
    intro buf
    induction buf with
    | nil =>
      rintro dev dev' ⟨⟩
      rfl
    | cons ch buf ih =>
      intro dev dev' h
      obtain ⟨dev₁, h₁, h₂⟩ := Option.bind_eq_some_iff.mp h
      exact (ih _ _ h₂).trans (isSome_fbWriteChar fontData h₁)
  induction bufs generalizing dev with
  | nil =>
    cases h
    rfl
  | cons buf bufs ih =>
    obtain ⟨r, h₁, h₂⟩ := Option.bind_eq_some_iff.mp h
    obtain ⟨dev₁, h₃, rfl⟩ := Option.map_eq_some_iff.mp h₁
    exact (ih h₂).trans (isSome_fbRender.trans (hchars buf _ _ h₃))

end Buffered

/-- After every write line `r` of the screen is line `r` of the ring. -/
theorem fbWrites_screen_eq_ring (fontData : ℕ → UInt8) (m : ModeInfo) (h : m.Valid)
    (dev : Device) (b lfb : Buffer UInt8) (bufs : List (List UInt8)) :
    ∃ dev' back, fbWrites fontData bufs (fbInit dev m (fun _ => some b) lfb) = some dev' ∧
      dev'.backBuffer = some back ∧ dev'.maxHeight = m.height / 13 ∧
      ∀ r < dev'.maxHeight, ∀ j < 13, ∀ c < m.width * m.depth / 8,
        dev'.frontBuffer ((13 * r + j) * m.bytesPerScanline + c) =
          back ((13 * ((dev'.backBufferStart + r) % dev'.maxHeight) + j) *
            (m.width * m.depth / 8) + c) := by
  have hinit := fbInit_displays dev (fun _ => some b) lfb h
  obtain ⟨dev', hrun, hd⟩ := fbWrites_displays fontData h
    (blankBelow_cleared { dev with curMode := m } lfb h rfl) bufs hinit
  have hsome : dev'.backBuffer.isSome := isSome_fbWrites fontData hrun
  obtain ⟨back, hback⟩ := Option.isSome_iff_exists.mp hsome
  refine ⟨dev', back, hrun, hback, hd.maxHeight, ?_⟩
  rw [h.rowBytes_eq m.width]
  intro r hr j hj c hc
  have hlt : r < m.lines := hd.maxHeight ▸ hr
  have hfront := (hd.front r hlt j hj c hc).trans (hd.text r hlt j hj c hc).symm
  simp only [Device.shown, hback, hd.mode] at hfront
  exact hfront

/-- 800 by 600 pixels of three bytes each, with padded scanlines. -/
def padded800 : ModeInfo :=
  { width := 800, height := 600, depth := 24, bytesPerScanline := 2496 }

theorem padded800_valid : padded800.Valid := by
  constructor <;> decide

/-- A device before its initialisation. -/
def zeroDevice : Device where
  curMode := {}
  maxWidth := 0
  maxHeight := 0
  curX := 0
  curY := 0
  backBuffer := none
  frontBuffer := fun _ => 0
  backBufferStart := 0
  frontDirtyStart := 0
  frontDirtyEnd := 0
  contigScanlines := false
  foreground := 0
  background := 0
  fbWriteCharDepth := none

/-- The last byte of the text on the screen, after two lines were written. -/
theorem padded800_screen :
    ∃ dev' back, fbWrites (fun _ => 0x55) [[72, 105], [10, 33]]
        (fbInit zeroDevice padded800 (fun _ => some fun _ => 7) fun _ => 9) = some dev' ∧
      dev'.backBuffer = some back ∧
      dev'.frontBuffer ((13 * 45 + 12) * 2496 + 2399) =
        back ((13 * ((dev'.backBufferStart + 45) % dev'.maxHeight) + 12) * 2400 + 2399) := by
  obtain ⟨dev', back, hrun, hback, hheight, hscreen⟩ := fbWrites_screen_eq_ring (fun _ => 0x55)
    padded800 padded800_valid zeroDevice (fun _ => 7) (fun _ => 9) [[72, 105], [10, 33]]
  exact ⟨dev', back, hrun, hback, hscreen 45 (by rw [hheight]; decide) 12 (by decide) 2399
    (by decide)⟩

/-- With and without a back buffer the screen and the cursor are the same. -/
theorem fbWrites_buffered_eq_direct (fontData : ℕ → UInt8) (m : ModeInfo) (h : m.Valid)
    (dev : Device) (b lfb : Buffer UInt8) (bufs : List (List UInt8)) :
    ∃ buffered direct,
      fbWrites fontData bufs (fbInit dev m (fun _ => some b) lfb) = some buffered ∧
      fbWrites fontData bufs (fbInit dev m (fun _ => none) lfb) = some direct ∧
      buffered.frontBuffer = direct.frontBuffer ∧
      buffered.curX = direct.curX ∧ buffered.curY = direct.curY := by
  have hbelow := blankBelow_cleared { dev with curMode := m } lfb h rfl
  obtain ⟨buffered, h₁, hb⟩ := fbWrites_displays fontData h hbelow bufs
    (fbInit_displays dev (fun _ => some b) lfb h)
  obtain ⟨direct, h₂, hd⟩ := fbWrites_displays fontData h hbelow bufs
    (fbInit_displays dev (fun _ => none) lfb h)
  refine ⟨buffered, direct, h₁, h₂, ?_, hb.curX.trans hd.curX.symm, hb.curY.trans hd.curY.symm⟩
  funext x
  by_cases hx : Text m x
  · obtain ⟨q, hq, j, hj, c, hc, rfl⟩ := hx
    rw [hb.front q hq j hj c hc, hd.front q hq j hj c hc]
  · rw [hb.around x hx, hd.around x hx]

theorem padded800_agree :
    ∃ buffered direct,
      fbWrites (fun _ => 0x55) [[72, 105], [10, 33]]
        (fbInit zeroDevice padded800 (fun _ => some fun _ => 7) fun _ => 9) = some buffered ∧
      fbWrites (fun _ => 0x55) [[72, 105], [10, 33]]
        (fbInit zeroDevice padded800 (fun _ => none) fun _ => 9) = some direct ∧
      buffered.frontBuffer = direct.frontBuffer ∧
      buffered.curX = direct.curX ∧ buffered.curY = direct.curY :=
  fbWrites_buffered_eq_direct (fun _ => 0x55) padded800 padded800_valid zeroDevice (fun _ => 7)
    (fun _ => 9) [[72, 105], [10, 33]]

end Gandr.Fb
