import Gandr.Fb.Screen
import Gandr.Lib.Access

/-! The loads and stores of the console, in the order in which the code makes them.
Running them gives what the functions leave in the buffers. -/

namespace Gandr.Fb

/-- The buffers and the table `font_data`. -/
inductive Region where
  | front
  | back
  | font
  deriving DecidableEq

abbrev Accesses := List (Access Region UInt8)

def Device.regions (fontData : Buffer UInt8) (dev : Device) : Access.Memory Region UInt8
  | .front => dev.frontBuffer
  | .back => dev.backBuffer.getD fun _ => 0
  | .font => fontData

section Accesses

variable (dev : Device)

def memsetPixelAccesses (r : Region) (dest : ℕ) (pixel : UInt32) (n : ℕ) : Accesses :=
  let bytes := pixelBytes dev.curMode.depth pixel
  Access.loop n fun i => [.store r (dest + i * bytes.length) bytes]

def renderContigAccesses (start stop : ℕ) : Accesses :=
  let charLine := u32 (fontHeight * dev.curMode.bytesPerScanline)
  if start < stop then
    [.copy .front (dev.frontDirtyStart * charLine) .back (start * charLine)
      ((stop - start) * charLine)]
  else
    [.copy .front (dev.frontDirtyStart * charLine) .back (start * charLine)
      (Word.sub 32 dev.maxHeight dev.backBufferStart * charLine)] ++
    [.copy .front
      (Word.sub 32 (u32 (dev.frontDirtyStart + dev.maxHeight)) dev.backBufferStart * charLine)
      .back 0 (stop * charLine)]

def renderRowAccesses (dest row : ℕ) : Accesses :=
  let charLine := dev.curMode.width * dev.curMode.depth / 8
  [.copy .front (u32 (dest * dev.curMode.bytesPerScanline)) .back (row * charLine) charLine]

def renderRowsAccesses (start stop : ℕ) : Accesses :=
  if start < stop then
    Access.loop (stop - start) fun n => Access.loop fontHeight fun j =>
      let i := start + n
      renderRowAccesses dev ((dev.frontDirtyStart + i) * fontHeight + j)
        ((start + i) * fontHeight + j)
  else
    let left := Word.sub 32 dev.maxHeight dev.backBufferStart
    (Access.loop left fun i => Access.loop fontHeight fun j =>
      renderRowAccesses dev ((dev.frontDirtyStart + i) * fontHeight + j)
        ((start + i) * fontHeight + j)) ++
    Access.loop stop fun i => Access.loop fontHeight fun j =>
      renderRowAccesses dev
        ((Word.sub 32 (u32 (dev.frontDirtyStart + dev.maxHeight)) dev.backBufferStart + i) *
          fontHeight + j)
        (i * fontHeight + j)

def renderAccesses : Accesses :=
  match dev.backBuffer with
  | none => []
  | some _ =>
    if dev.frontDirtyEnd ≤ dev.frontDirtyStart then []
    else
      let start := u32 (dev.frontDirtyStart + dev.backBufferStart) % dev.maxHeight
      let stop := u32 (dev.frontDirtyEnd + dev.backBufferStart) % dev.maxHeight
      if dev.contigScanlines then renderContigAccesses dev start stop
      else renderRowsAccesses dev start stop

/-- `fb_clear_buffers` in the front buffer. -/
def clearFrontAccesses : Accesses :=
  let mode := dev.curMode
  if dev.contigScanlines then
    memsetPixelAccesses dev .front 0 dev.background (mode.width * mode.height)
  else
    Access.loop mode.height fun i =>
      memsetPixelAccesses dev .front (u32 (i * mode.bytesPerScanline)) dev.background mode.width

def clearAccesses : Accesses :=
  match dev.backBuffer with
  | none => clearFrontAccesses dev
  | some _ =>
    memsetPixelAccesses dev .back 0 dev.background
      (u32 (dev.curMode.width * dev.maxHeight * fontHeight)) ++ clearFrontAccesses dev

def scrollFrontAccesses : Accesses :=
  let mode := dev.curMode
  let charLine := u32 (fontHeight * mode.bytesPerScanline)
  if dev.contigScanlines then
    let moved := mode.width * (mode.height - fontHeight) * mode.depth / 8
    [.copy .front 0 .front charLine moved] ++
      memsetPixelAccesses dev .front moved dev.background (mode.width * fontHeight)
  else
    let last := Word.sub 32 dev.maxHeight 1
    (Access.loop last fun i => Access.loop fontHeight fun j =>
      let dest := (fontHeight * i + j) * mode.bytesPerScanline
      [.copy .front dest .front (dest + charLine) (mode.width * mode.depth / 8)]) ++
    Access.loop fontHeight fun j =>
      memsetPixelAccesses dev .front ((fontHeight * last + j) * mode.bytesPerScanline)
        dev.background mode.width

def scrollAccesses : Accesses :=
  match dev.backBuffer with
  | some _ =>
    let mode := dev.curMode
    memsetPixelAccesses dev .back
      (u32 (dev.backBufferStart * fontHeight * mode.width * mode.depth) / 8)
      dev.background (mode.width * fontHeight)
  | none => scrollFrontAccesses dev

def nextLineAccesses : Accesses :=
  if dev.curY = Word.sub 32 dev.maxHeight 1 then scrollAccesses dev else []

variable (fontData : Buffer UInt8)

def writeGlyphAccesses (c : UInt8) (depth first column step : ℕ) (r : Region) : Accesses :=
  Access.loop fontHeight fun i => Access.loop 8 fun j =>
    [.load .font (c.toNat * fontHeight + i) 1] ++
    [.store r (first + column + i * step + j * (depth / 8))
      (pixelBytes depth (glyphPixel fontData dev.foreground dev.background c i j))]

def writeCharDepthAccesses (c : UInt8) (depth elem column : ℕ) : Accesses :=
  let plot (y bytesPerScanline : ℕ) : Region → Accesses :=
    writeGlyphAccesses dev fontData c depth
      (elem * (u32 (y * fontHeight * bytesPerScanline) / elem)) column
      (elem * (bytesPerScanline / elem))
  match dev.backBuffer with
  | some _ =>
    let y := u32 (dev.curY + dev.backBufferStart) % dev.maxHeight
    plot y (dev.curMode.width * (depth / 8)) .back
  | none => plot dev.curY dev.curMode.bytesPerScanline .front

def Writer.accesses (w : Writer) (c : UInt8) : Accesses :=
  match w with
  | fbWriteChar8 => writeCharDepthAccesses dev fontData c 8 1 (u32 (dev.curX * fontWidth))
  | fbWriteChar16 => writeCharDepthAccesses dev fontData c 16 2 (2 * u32 (dev.curX * fontWidth))
  | fbWriteChar24 => writeCharDepthAccesses dev fontData c 24 1 (u32 (dev.curX * fontWidth * 3))
  | fbWriteChar32 => writeCharDepthAccesses dev fontData c 32 4 (4 * u32 (dev.curX * fontWidth))

def writeCharAccesses (c : UInt8) : Accesses :=
  match c with
  | 10 => nextLineAccesses dev
  | 13 => []
  | 9 => []
  | _ =>
    match dev.fbWriteCharDepth with
    | none => []
    | some w =>
      w.accesses dev fontData c ++
        let dev := fbLineDirty (w.call fontData dev c) dev.curY
        if dev.curX + 1 = dev.maxWidth then nextLineAccesses { dev with curX := 0 } else []

end Accesses

section Run

open Access

variable {fontData : Buffer UInt8} {dev dev' : Device}

theorem update_front {b : Buffer UInt8} (hfront : dev'.frontBuffer = b)
    (hback : dev'.backBuffer = dev.backBuffer) :
    Function.update (dev.regions fontData) .front b = dev'.regions fontData := by
  funext r
  cases r <;> simp [Device.regions, hfront, hback]

theorem update_back {b : Buffer UInt8} (hfront : dev'.frontBuffer = dev.frontBuffer)
    (hback : dev'.backBuffer = some b) :
    Function.update (dev.regions fontData) .back b = dev'.regions fontData := by
  funext r
  cases r <;> simp [Device.regions, hfront, hback]

theorem memsetPixel_does {mem : Memory Region UInt8} (r : Region) (dest : ℕ) (pixel : UInt32)
    (n : ℕ) : Does mem r (memsetPixelAccesses dev r dest pixel n) (memsetPixel dev dest pixel n) :=
  Does.loop fun _ _ => Does.store _ _

theorem renderRow_does {mem : Memory Region UInt8} (dest row : ℕ) :
    Does mem .front (renderRowAccesses dev dest row) (renderRow dev (mem .back) dest row) :=
  Does.copy (by decide) _ _ _

theorem renderRows_does {mem : Memory Region UInt8} (start stop : ℕ) :
    ∃ f, Does mem .front (renderRowsAccesses dev start stop) f ∧
      renderRows dev (mem .back) start stop = f dev.frontBuffer := by
  unfold renderRowsAccesses renderRows
  split_ifs with h
  · exact ⟨_, Does.loop fun _ _ => Does.loop fun _ _ => renderRow_does _ _, rfl⟩
  · exact ⟨_, (Does.loop fun _ _ => Does.loop fun _ _ => renderRow_does _ _).append
      (Does.loop fun _ _ => Does.loop fun _ _ => renderRow_does _ _), rfl⟩

theorem renderContig_does {mem : Memory Region UInt8} (start stop : ℕ) :
    ∃ f, Does mem .front (renderContigAccesses dev start stop) f ∧
      renderContig dev (mem .back) start stop = f dev.frontBuffer := by
  unfold renderContigAccesses renderContig
  dsimp only
  split_ifs with h
  · exact ⟨_, Does.copy (by decide) _ _ _, rfl⟩
  · exact ⟨_, (Does.copy (by decide) _ _ _).append (Does.copy (by decide) _ _ _), rfl⟩

theorem fbRender_run : run (renderAccesses dev) (dev.regions fontData) =
    (fbRender dev).regions fontData := by
  unfold renderAccesses fbRender
  cases hback : dev.backBuffer with
  | none => rfl
  | some back =>
    have hmem : dev.regions fontData .back = back := by
      rw [Device.regions, hback]
      rfl
    dsimp only
    split_ifs with hdirty hcontig
    · rfl
    · obtain ⟨f, hf, heq⟩ := @renderContig_does dev (dev.regions fontData)
        (u32 (dev.frontDirtyStart + dev.backBufferStart) % dev.maxHeight)
        (u32 (dev.frontDirtyEnd + dev.backBufferStart) % dev.maxHeight)
      rw [hf.run_eq]
      exact update_front (hmem ▸ heq) hback.symm
    · obtain ⟨f, hf, heq⟩ := @renderRows_does dev (dev.regions fontData)
        (u32 (dev.frontDirtyStart + dev.backBufferStart) % dev.maxHeight)
        (u32 (dev.frontDirtyEnd + dev.backBufferStart) % dev.maxHeight)
      rw [hf.run_eq]
      exact update_front (hmem ▸ heq) hback.symm

theorem scrollFront_does {mem : Memory Region UInt8} :
    ∃ f, Does mem .front (scrollFrontAccesses dev) f ∧ scrollFront dev = f dev.frontBuffer := by
  unfold scrollFrontAccesses scrollFront
  dsimp only
  split_ifs with h
  · exact ⟨_, (Does.move _ _ _).append (memsetPixel_does _ _ _ _), rfl⟩
  · exact ⟨_, (Does.loop fun _ _ => Does.loop fun _ _ => Does.move _ _ _).append
      (Does.loop fun _ _ => memsetPixel_does _ _ _ _), rfl⟩

theorem fbScroll_run : run (scrollAccesses dev) (dev.regions fontData) =
    (fbScroll dev).regions fontData := by
  unfold scrollAccesses fbScroll
  cases hback : dev.backBuffer with
  | none =>
    obtain ⟨f, hf, heq⟩ := @scrollFront_does dev (dev.regions fontData)
    dsimp only
    rw [hf.run_eq]
    exact update_front heq hback.symm
  | some back =>
    dsimp only
    rw [(memsetPixel_does _ _ _ _).run_eq]
    refine update_back rfl ?_
    rw [Device.regions, hback]
    rfl

theorem nextLine_run : run (nextLineAccesses dev) (dev.regions fontData) =
    (nextLine dev).regions fontData := by
  unfold nextLineAccesses nextLine
  split_ifs with h
  · exact fbScroll_run
  · rfl

theorem clearFront_does {mem : Memory Region UInt8} :
    ∃ f, Does mem .front (clearFrontAccesses dev) f ∧
      (fbClearBuffers dev).frontBuffer = f dev.frontBuffer := by
  unfold clearFrontAccesses fbClearBuffers
  dsimp only
  split_ifs with h
  · exact ⟨_, memsetPixel_does _ _ _ _, rfl⟩
  · exact ⟨_, Does.loop fun _ _ => memsetPixel_does _ _ _ _, rfl⟩

theorem fbClearBuffers_run : run (clearAccesses dev) (dev.regions fontData) =
    (fbClearBuffers dev).regions fontData := by
  unfold clearAccesses
  cases hback : dev.backBuffer with
  | none =>
    obtain ⟨f, hf, heq⟩ := @clearFront_does dev (dev.regions fontData)
    dsimp only
    rw [hf.run_eq]
    refine update_front heq ?_
    simp [fbClearBuffers, hback]
  | some back =>
    have hmem : dev.regions fontData .back = back := by
      rw [Device.regions, hback]
      rfl
    let cleared := memsetPixel dev 0 dev.background
      (u32 (dev.curMode.width * dev.maxHeight * fontHeight)) back
    have hcleared : Function.update (dev.regions fontData) .back cleared =
        Device.regions fontData { dev with backBuffer := some cleared } := update_back rfl rfl
    obtain ⟨f, hf, heq⟩ := @clearFront_does dev (Device.regions fontData
      { dev with backBuffer := some cleared })
    dsimp only
    rw [run_append, (memsetPixel_does _ _ _ _).run_eq, hmem, hcleared, hf.run_eq]
    refine update_front heq ?_
    simp [fbClearBuffers, hback, cleared]

theorem writeGlyph_does {mem : Memory Region UInt8} (c : UInt8) (depth first column step : ℕ)
    (r : Region) :
    Does mem r (writeGlyphAccesses dev fontData c depth first column step r)
      (writeGlyph fontData dev c depth first column step) :=
  Does.loop fun _ _ => Does.loop fun _ _ => (Does.load _ _ _).append (Does.store _ _)

theorem writeCharDepth_run (c : UInt8) (depth elem column : ℕ) :
    run (writeCharDepthAccesses dev fontData c depth elem column) (dev.regions fontData) =
      (writeCharDepth fontData dev c depth elem column).regions fontData := by
  unfold writeCharDepthAccesses writeCharDepth
  cases hback : dev.backBuffer with
  | none =>
    dsimp only
    rw [(writeGlyph_does _ _ _ _ _ _).run_eq]
    exact update_front rfl hback.symm
  | some back =>
    dsimp only
    rw [(writeGlyph_does _ _ _ _ _ _).run_eq]
    refine update_back rfl ?_
    rw [Device.regions, hback]
    rfl

theorem writer_run (w : Writer) (c : UInt8) :
    run (w.accesses dev fontData c) (dev.regions fontData) =
      (w.call fontData dev c).regions fontData := by
  cases w <;> exact writeCharDepth_run _ _ _ _

/-- The accesses of a character leave the buffers as the character does. -/
theorem fbWriteChar_run {c : UInt8} (h : fbWriteChar fontData dev c = some dev') :
    run (writeCharAccesses dev fontData c) (dev.regions fontData) = dev'.regions fontData := by
  unfold writeCharAccesses
  unfold fbWriteChar at h
  split at h
  · cases h
    exact nextLine_run
  · cases h
    rfl
  · cases h
    rfl
  · obtain ⟨w, hw, rfl⟩ := Option.map_eq_some_iff.mp h
    simp only [hw]
    rw [run_append, writer_run]
    split_ifs with hlast
    · exact nextLine_run
    · rfl

end Run

end Gandr.Fb
