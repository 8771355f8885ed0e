import Gandr.Lib.Buffer
import Gandr.Lib.Word

/-! The framebuffer console of `bal/device/fb/fb.c`. A buffer is a function of
the byte offset from its start, so that `front_buffer` is what the memory from
`lfb_address` on holds and a `back_buffer` of `none` is `NULL`. Products and sums
of 32-bit operands are reduced as the code's types have it; offsets of type
`size_t` are wide enough for the buffers they point into. -/

namespace Gandr.Fb

/-- `struct mode_info`. -/
structure ModeInfo where
  modeIdentifier : ℕ := 0
  modeType : ℕ := 0
  modeAttributes : ℕ := 0
  width : ℕ := 0
  height : ℕ := 0
  widthOfCharCell : ℕ := 0
  heightOfCharCell : ℕ := 0
  depth : ℕ := 0
  bytesPerScanline : ℕ := 0
  redMaskSize : ℕ := 0
  redFieldPos : ℕ := 0
  greenMaskSize : ℕ := 0
  greenFieldPos : ℕ := 0
  blueMaskSize : ℕ := 0
  blueFieldPos : ℕ := 0
  reservedMaskSize : ℕ := 0
  reservedFieldPos : ℕ := 0
  lfbAddress : ℕ := 0
  maxPixelClock : ℕ := 0
  deriving DecidableEq

def fontWidth : ℕ := 8

def fontHeight : ℕ := 13

/-- The values of `fb_write_char_depth`. -/
inductive Writer where
  | fbWriteChar8
  | fbWriteChar16
  | fbWriteChar24
  | fbWriteChar32
  deriving DecidableEq

/-- `struct fb_dev`; of a `struct pixel_color` only the pixel is read. -/
structure Device where
  curMode : ModeInfo
  maxWidth : ℕ
  maxHeight : ℕ
  curX : ℕ
  curY : ℕ
  backBuffer : Option (Buffer UInt8)
  frontBuffer : Buffer UInt8
  backBufferStart : ℕ
  frontDirtyStart : ℕ
  frontDirtyEnd : ℕ
  /-- the flag `CONTIG_SCANLINES` -/
  contigScanlines : Bool
  foreground : UInt32
  background : UInt32
  fbWriteCharDepth : Option Writer

/-- A value of type `uint32_t`. -/
def u32 (x : ℕ) : ℕ := x % 2^32

def fbGetPixelColor (dev : Device) (red green blue : UInt8) : UInt32 :=
  let mode := dev.curMode
  UInt32.ofNat ((red.toNat / 2^(8 - mode.redMaskSize)) * 2^mode.redFieldPos) |||
    UInt32.ofNat ((green.toNat / 2^(8 - mode.greenMaskSize)) * 2^mode.greenFieldPos) |||
    UInt32.ofNat ((blue.toNat / 2^(8 - mode.blueMaskSize)) * 2^mode.blueFieldPos)

def fbResetForegroundColor (dev : Device) : Device :=
  { dev with foreground := fbGetPixelColor dev 0xFF 0xFF 0xFF }

def fbResetBackgroundColor (dev : Device) : Device := { dev with background := 0 }

/-- The bytes of a pixel; the code stores none of other depths. -/
def pixelBytes (depth : ℕ) (pixel : UInt32) : List UInt8 :=
  match depth with
  | 8 => [pixel.toUInt8]
  | 16 => [pixel.toUInt8, (pixel >>> 8).toUInt8]
  | 24 => [pixel.toUInt8, (pixel >>> 8).toUInt8, (pixel >>> 16).toUInt8]
  | 32 => [pixel.toUInt8, (pixel >>> 8).toUInt8, (pixel >>> 16).toUInt8, (pixel >>> 24).toUInt8]
  | _ => []

def memsetPixel (dev : Device) (dest : ℕ) (pixel : UInt32) (n : ℕ) (b : Buffer UInt8) :
    Buffer UInt8 :=
  let bytes := pixelBytes dev.curMode.depth pixel
  b.loop n fun i b => b.store (dest + i * bytes.length) bytes

/-- `fb_render` where the scanlines are contiguous. -/
def renderContig (dev : Device) (back : Buffer UInt8) (start stop : ℕ) : Buffer UInt8 :=
  let charLine := u32 (fontHeight * dev.curMode.bytesPerScanline)
  if start < stop then
    dev.frontBuffer.memcpy (dev.frontDirtyStart * charLine) back (start * charLine)
      ((stop - start) * charLine)
  else
    let front := dev.frontBuffer.memcpy (dev.frontDirtyStart * charLine) back (start * charLine)
      (Word.sub 32 dev.maxHeight dev.backBufferStart * charLine)
    front.memcpy
      (Word.sub 32 (u32 (dev.frontDirtyStart + dev.maxHeight)) dev.backBufferStart * charLine)
      back 0 (stop * charLine)

/-- One pixel line, from row `row` of the back buffer to row `dest`. -/
def renderRow (dev : Device) (back : Buffer UInt8) (dest row : ℕ) (front : Buffer UInt8) :
    Buffer UInt8 :=
  let charLine := dev.curMode.width * dev.curMode.depth / 8
  front.memcpy (u32 (dest * dev.curMode.bytesPerScanline)) back (row * charLine) charLine

/-- `fb_render` where every scanline is copied for itself. -/
def renderRows (dev : Device) (back : Buffer UInt8) (start stop : ℕ) : Buffer UInt8 :=
  if start < stop then
    dev.frontBuffer.loop (stop - start) fun n => Buffer.loop fontHeight fun j =>
      let i := start + n
      renderRow dev back ((dev.frontDirtyStart + i) * fontHeight + j)
        ((start + i) * fontHeight + j)
  else
    let left := Word.sub 32 dev.maxHeight dev.backBufferStart
    let front := dev.frontBuffer.loop left fun i => Buffer.loop fontHeight fun j =>
      renderRow dev back ((dev.frontDirtyStart + i) * fontHeight + j)
        ((start + i) * fontHeight + j)
    front.loop stop fun i => Buffer.loop fontHeight fun j =>
      renderRow dev back
        ((Word.sub 32 (u32 (dev.frontDirtyStart + dev.maxHeight)) dev.backBufferStart + i) *
          fontHeight + j)
        (i * fontHeight + j)

def fbRender (dev : Device) : Device :=
  match dev.backBuffer with
  | none => dev
  | some back =>
    if dev.frontDirtyEnd ≤ dev.frontDirtyStart then dev
    else
      let start := u32 (dev.frontDirtyStart + dev.backBufferStart) % dev.maxHeight
      let stop := u32 (dev.frontDirtyEnd + dev.backBufferStart) % dev.maxHeight
      { dev with frontBuffer :=
          if dev.contigScanlines then renderContig dev back start stop
          else renderRows dev back start stop }

def fbClearBuffers (dev : Device) : Device :=
  let mode := dev.curMode
  { dev with
    curX := 0
    curY := 0
    backBuffer := dev.backBuffer.map
      (memsetPixel dev 0 dev.background (u32 (mode.width * dev.maxHeight * fontHeight)))
    backBufferStart := if dev.backBuffer.isSome then 0 else dev.backBufferStart
    frontBuffer :=
      if dev.contigScanlines then
        memsetPixel dev 0 dev.background (mode.width * mode.height) dev.frontBuffer
      else
        dev.frontBuffer.loop mode.height fun i =>
          memsetPixel dev (u32 (i * mode.bytesPerScanline)) dev.background mode.width
    frontDirtyStart := 0
    frontDirtyEnd := 0 }

def fbLineDirty (dev : Device) (line : ℕ) : Device :=
  { dev with
    frontDirtyStart := if line < dev.frontDirtyStart then line else dev.frontDirtyStart
    frontDirtyEnd := if dev.frontDirtyEnd ≤ line then u32 (line + 1) else dev.frontDirtyEnd }

/-- `fb_scroll` without a back buffer: the pixels move up in place. -/
def scrollFront (dev : Device) : Buffer UInt8 :=
  let mode := dev.curMode
  let charLine := u32 (fontHeight * mode.bytesPerScanline)
  if dev.contigScanlines then
    let moved := mode.width * (mode.height - fontHeight) * mode.depth / 8
    memsetPixel dev moved dev.background (mode.width * fontHeight)
      (dev.frontBuffer.copyUp 0 charLine moved)
  else
    -- `dest` advances by one scanline a round
    let last := Word.sub 32 dev.maxHeight 1
    let front := dev.frontBuffer.loop last fun i =>
      Buffer.loop fontHeight fun j b =>
        let dest := (fontHeight * i + j) * mode.bytesPerScanline
        b.copyUp dest (dest + charLine) (mode.width * mode.depth / 8)
    front.loop fontHeight fun j =>
      memsetPixel dev ((fontHeight * last + j) * mode.bytesPerScanline)
        dev.background mode.width

def fbScroll (dev : Device) : Device :=
  match dev.backBuffer with
  | some back =>
    let mode := dev.curMode
    { dev with
      backBuffer := some (memsetPixel dev
        (u32 (dev.backBufferStart * fontHeight * mode.width * mode.depth) / 8)
        dev.background (mode.width * fontHeight) back)
      backBufferStart := u32 (dev.backBufferStart + 1) % dev.maxHeight
      frontDirtyStart := 0
      frontDirtyEnd := dev.maxHeight }
  | none => { dev with frontBuffer := scrollFront dev }

section Write

variable (fontData : ℕ → UInt8)

/-- The pixel of column `j` in row `i` of a character. -/
def glyphPixel (foreground background : UInt32) (c : UInt8) (i j : ℕ) : UInt32 :=
  if (fontData (c.toNat * fontHeight + i) >>> UInt8.ofNat (7 - j)) &&& 1 ≠ 0 then foreground
  else background

/-- The loops that the four writers share: the first row is at `first`, the next
one `step` further, and `column` is where the character starts in them. -/
def writeGlyph (dev : Device) (c : UInt8) (depth first column step : ℕ) (dest : Buffer UInt8) :
    Buffer UInt8 :=
  dest.loop fontHeight fun i => Buffer.loop 8 fun j b =>
    b.store (first + column + i * step + j * (depth / 8))
      (pixelBytes depth (glyphPixel fontData dev.foreground dev.background c i j))

/-- A writer of depth `depth` whose `dest` points to elements of `elem` bytes. -/
def writeCharDepth (dev : Device) (c : UInt8) (depth elem column : ℕ) : Device :=
  let plot (y bytesPerScanline : ℕ) : Buffer UInt8 → Buffer UInt8 :=
    writeGlyph fontData dev c depth (elem * (u32 (y * fontHeight * bytesPerScanline) / elem))
      column (elem * (bytesPerScanline / elem))
  match dev.backBuffer with
  | some back =>
    let y := u32 (dev.curY + dev.backBufferStart) % dev.maxHeight
    { dev with backBuffer := some (plot y (dev.curMode.width * (depth / 8)) back) }
  | none => { dev with frontBuffer := plot dev.curY dev.curMode.bytesPerScanline dev.frontBuffer }

def fbWriteChar8 (dev : Device) (c : UInt8) : Device :=
  writeCharDepth fontData dev c 8 1 (u32 (dev.curX * fontWidth))

def fbWriteChar16 (dev : Device) (c : UInt8) : Device :=
  writeCharDepth fontData dev c 16 2 (2 * u32 (dev.curX * fontWidth))

def fbWriteChar24 (dev : Device) (c : UInt8) : Device :=
  writeCharDepth fontData dev c 24 1 (u32 (dev.curX * fontWidth * 3))

def fbWriteChar32 (dev : Device) (c : UInt8) : Device :=
  writeCharDepth fontData dev c 32 4 (4 * u32 (dev.curX * fontWidth))

def Writer.call (w : Writer) (dev : Device) (c : UInt8) : Device :=
  match w with
  | fbWriteChar8 => Fb.fbWriteChar8 fontData dev c
  | fbWriteChar16 => Fb.fbWriteChar16 fontData dev c
  | fbWriteChar24 => Fb.fbWriteChar24 fontData dev c
  | fbWriteChar32 => Fb.fbWriteChar32 fontData dev c

/-- To the next line, scrolling at the bottom. -/
def nextLine (dev : Device) : Device :=
  if dev.curY = Word.sub 32 dev.maxHeight 1 then fbScroll dev else { dev with curY := dev.curY + 1 }

/-- `none` is a call through a writer that was never set. -/
def fbWriteChar (dev : Device) (c : UInt8) : Option Device :=
  match c with
  | 10 => some { nextLine dev with curX := 0 }
  | 13 => some { dev with curX := 0 }
  | 9 =>
    let curX := dev.curX + (8 - dev.curX % 8)
    some { dev with curX := if curX ≥ dev.maxWidth then Word.sub 32 dev.maxWidth 1 else curX }
  | _ =>
    dev.fbWriteCharDepth.map fun w =>
      let dev := fbLineDirty (w.call fontData dev c) dev.curY
      if dev.curX + 1 = dev.maxWidth then nextLine { dev with curX := 0 }
      else { dev with curX := dev.curX + 1 }

/-- The loop of `fb_write` over the bytes. -/
def writeChars : List UInt8 → Device → Option Device
  | [], dev => some dev
  | c :: cs, dev => (fbWriteChar fontData dev c).bind (writeChars cs)

/-- `fb_write`, with the count it stores in `wrote`; its result is 0. -/
def fbWrite (dev : Device) (buf : List UInt8) : Option (Device × ℕ) :=
  (writeChars fontData buf dev).map fun dev => (fbRender dev, buf.length)

end Write

def fbInit (dev : Device) (mode : ModeInfo) (malloc : ℕ → Option (Buffer UInt8))
    (lfb : Buffer UInt8) : Device :=
  let dev := { dev with
    curMode := mode
    maxWidth := mode.width / fontWidth
    maxHeight := mode.height / fontHeight
    backBuffer := malloc
      (u32 (mode.width * (mode.height / fontHeight) * fontHeight * mode.depth) / 8)
    frontBuffer := lfb
    fbWriteCharDepth := match mode.depth with
      | 8 => some .fbWriteChar8
      | 16 => some .fbWriteChar16
      | 24 => some .fbWriteChar24
      | 32 => some .fbWriteChar32
      | _ => dev.fbWriteCharDepth
    contigScanlines := mode.bytesPerScanline = mode.width * mode.depth / 8 }
  fbClearBuffers (fbResetForegroundColor (fbResetBackgroundColor dev))

end Gandr.Fb
