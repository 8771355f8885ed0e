import Gandr.Bios.Services
import Gandr.Fb.Model

/-! The choice of a video mode: `vbe_init` of `bal/platform/bios/vbe.c`. The
firmware's part is what it answers: the results of the two calls that find the
card and the VBE, the information block, and for each mode identifier up to the
end of the list the result of the call that asks for it and the structure that
the call fills in. -/

namespace Gandr.Bios.Vbe

open Fb (ModeInfo)

/-- The fields of `struct vbe_info_block` that are read. -/
structure InfoBlock where
  signature : List UInt8
  version : UInt16

/-- The fields of `struct vbe_mode_info` that are read. -/
structure VbeModeInfo where
  attributes : UInt16 := 0
  windowAAttr : UInt8 := 0
  windowBAttr : UInt8 := 0
  windowSize : UInt16 := 0
  windowASeg : UInt16 := 0
  windowBSeg : UInt16 := 0
  bytesPerScanline : UInt16 := 0
  width : UInt16 := 0
  height : UInt16 := 0
  widthOfCharCell : UInt8 := 0
  heightOfCharCell : UInt8 := 0
  memoryPlanes : UInt8 := 0
  bpp : UInt8 := 0
  memoryModel : UInt8 := 0
  redMaskSize : UInt8 := 0
  redFieldPos : UInt8 := 0
  greenMaskSize : UInt8 := 0
  greenFieldPos : UInt8 := 0
  blueMaskSize : UInt8 := 0
  blueFieldPos : UInt8 := 0
  reservedMaskSize : UInt8 := 0
  reservedFieldPos : UInt8 := 0
  directColorAttr : UInt8 := 0
  lfbAddress : UInt32 := 0
  linBytesPerScanline : UInt16 := 0
  linRedMaskSize : UInt8 := 0
  linRedFieldPos : UInt8 := 0
  linGreenMaskSize : UInt8 := 0
  linGreenFieldPos : UInt8 := 0
  linBlueMaskSize : UInt8 := 0
  linBlueFieldPos : UInt8 := 0
  linReservedMaskSize : UInt8 := 0
  linReservedFieldPos : UInt8 := 0
  maxPixelClock : UInt32 := 0

/-- A bit of `enum vbe_mode_attributes`. -/
def VbeModeInfo.attr (info : VbeModeInfo) (bit : UInt16) : Bool := info.attributes &&& bit != 0

def attrSupported : UInt16 := 0x1
def attrExtendedInformation : UInt16 := 0x2
def attrColorMode : UInt16 := 0x8
def attrNotVgaCompatible : UInt16 := 0x20
def attrLinearFrameBuffer : UInt16 := 0x80
def attrDoubleScanMode : UInt16 := 0x100
def attrInterlaceMode : UInt16 := 0x200

def dcColorRampProgrammable : UInt8 := 0x1
def dcReservedFieldUsable : UInt8 := 0x2

def windowSupported : UInt8 := 0x1
def windowReadable : UInt8 := 0x2
def windowWriteable : UInt8 := 0x4

def mmTextMode : UInt8 := 0
def mmPackedPixel : UInt8 := 4
def mmDirectColor : UInt8 := 6

/-- `enum mode_type`. -/
def directColorMode : ℕ := 0
def packedPixelMode : ℕ := 1
def vgaTextMode : ℕ := 2

/-- `VBE_ID_USE_LFB`. -/
def idUseLfb : ℕ := 2^14

/-- `struct mode_brief`. -/
structure ModeBrief where
  width : ℕ
  height : ℕ
  bpp : ℕ
  text : Bool

def vesaDefinedModes : List ModeBrief :=
  [⟨640, 400, 8, false⟩, ⟨640, 480, 8, false⟩, ⟨800, 600, 4, false⟩, ⟨800, 600, 8, false⟩,
    ⟨1024, 768, 4, false⟩, ⟨1024, 768, 8, false⟩, ⟨1280, 1024, 4, false⟩,
    ⟨1280, 1024, 8, false⟩, ⟨80, 60, 0, true⟩, ⟨132, 25, 0, true⟩, ⟨132, 43, 0, true⟩,
    ⟨132, 50, 0, true⟩, ⟨132, 60, 0, true⟩, ⟨320, 200, 15, false⟩, ⟨320, 200, 16, false⟩,
    ⟨320, 200, 24, false⟩, ⟨640, 480, 15, false⟩, ⟨640, 480, 16, false⟩, ⟨640, 480, 24, false⟩,
    ⟨800, 600, 15, false⟩, ⟨800, 600, 16, false⟩, ⟨800, 600, 24, false⟩, ⟨1024, 768, 15, false⟩,
    ⟨1024, 768, 16, false⟩, ⟨1024, 768, 24, false⟩, ⟨1280, 1024, 15, false⟩,
    ⟨1280, 1024, 16, false⟩, ⟨1280, 1024, 24, false⟩]

/-- The entry of `vga_modes`. -/
def vgaMode : ModeInfo :=
  { modeIdentifier := 0x03, modeType := vgaTextMode, width := 80, height := 25,
    widthOfCharCell := 9, heightOfCharCell := 16, depth := 0, bytesPerScanline := 80 * 2,
    lfbAddress := 0xB8000 }

/-- One pass through the loop body: `new_mode` where a `continue` leaves it, or
a mode that goes into the list. -/
abbrev Vetting := Except ModeInfo ModeInfo

/-- Identifier, attributes and scanlines of a new mode. -/
def startMode (id : UInt16) (info : VbeModeInfo) : ModeInfo where
  modeIdentifier := id.toNat
  -- double scan 2, interlace 4, reserved field 1 and VGA compatible 8
  modeAttributes := (if info.attr attrDoubleScanMode then 2 else 0) |||
    (if info.attr attrInterlaceMode then 4 else 0) |||
    (if info.directColorAttr &&& dcReservedFieldUsable != 0 then 1 else 0) ||| 8
  bytesPerScanline := info.bytesPerScanline.toNat

def vetAttributes (id : UInt16) (info : VbeModeInfo) : Vetting :=
  if !info.attr attrSupported then .error {}
  else if !info.attr attrColorMode then .error {}
  else .ok (startMode id info)

/-- A mode that VESA has defined. -/
def vetPredefined (id : UInt16) (mode : ModeInfo) : Vetting :=
  if id < 0x100 ∨ id > 0x11B then .error mode
  else
    match vesaDefinedModes[id.toNat - 0x100]? with
    | none => .error mode
    | some brief =>
      if brief.bpp = 4 then .error mode
      else .ok { mode with
        modeType := if brief.text then vgaTextMode else packedPixelMode
        width := brief.width
        height := brief.height
        depth := brief.bpp }

/-- Size, depth and type as the card reports them. -/
def reportedMode (info : VbeModeInfo) (mode : ModeInfo) : ModeInfo :=
  let mode := { mode with
    width := info.width.toNat
    height := info.height.toNat
    depth := info.bpp.toNat }
  if info.memoryModel = mmTextMode then
    { mode with
      modeType := vgaTextMode
      depth := 0
      widthOfCharCell := info.widthOfCharCell.toNat
      heightOfCharCell := info.heightOfCharCell.toNat }
  else if info.memoryModel = mmPackedPixel then { mode with modeType := packedPixelMode }
  else { mode with modeType := directColorMode }

def setPixelClock (version : UInt16) (info : VbeModeInfo) (mode : ModeInfo) : ModeInfo :=
  if version ≥ 0x0300 then { mode with maxPixelClock := info.maxPixelClock.toNat } else mode

def vetReported (version : UInt16) (info : VbeModeInfo) (mode : ModeInfo) : Vetting :=
  if info.memoryPlanes ≠ 1 then .error mode
  else if info.memoryModel ≠ mmTextMode ∧ info.memoryModel ≠ mmPackedPixel ∧
    info.memoryModel ≠ mmDirectColor then .error mode
  else if info.memoryModel ≠ mmTextMode ∧ info.bpp ≠ 8 ∧ info.bpp ≠ 15 ∧ info.bpp ≠ 16 ∧
    info.bpp ≠ 24 ∧ info.bpp ≠ 32 then .error mode
  else
    let mode := reportedMode info mode
    if info.attr attrNotVgaCompatible then
      let mode := { mode with modeAttributes := mode.modeAttributes &&& (0xFFFFFFFF ^^^ 8) }
      if mode.depth = 8 ∧ mode.modeType = packedPixelMode ∧
        info.directColorAttr &&& dcColorRampProgrammable = 0 then .error mode
      else .ok (setPixelClock version info mode)
    else .ok (setPixelClock version info mode)

def vetGeometry (version id : UInt16) (info : VbeModeInfo) (mode : ModeInfo) : Vetting :=
  if version < 0x0102 ∧ !info.attr attrExtendedInformation then vetPredefined id mode
  else vetReported version info mode

/-- The masks of a packed pixel mode of 8, 15, 16, 24 or 32 bits. -/
def packedMasks (mode : ModeInfo) : ModeInfo :=
  let masks (rs rp gs gp bs bp vs vp : ℕ) : ModeInfo :=
    { mode with
      redMaskSize := rs, redFieldPos := rp, greenMaskSize := gs, greenFieldPos := gp
      blueMaskSize := bs, blueFieldPos := bp, reservedMaskSize := vs, reservedFieldPos := vp }
  match mode.depth with
  | 8 => masks 3 5 3 2 2 0 0 15
  | 15 => masks 5 10 5 5 5 0 1 15
  | 16 => masks 5 11 6 5 5 0 0 0
  | 24 => masks 8 16 8 8 8 0 0 0
  | 32 => masks 8 16 8 8 8 0 8 24
  | _ => mode

def colorMasks (info : VbeModeInfo) (mode : ModeInfo) : ModeInfo :=
  if mode.modeType = directColorMode then
    { mode with
      redMaskSize := info.redMaskSize.toNat, redFieldPos := info.redFieldPos.toNat
      greenMaskSize := info.greenMaskSize.toNat, greenFieldPos := info.greenFieldPos.toNat
      blueMaskSize := info.blueMaskSize.toNat, blueFieldPos := info.blueFieldPos.toNat
      reservedMaskSize := info.reservedMaskSize.toNat
      reservedFieldPos := info.reservedFieldPos.toNat }
  else if mode.modeType = packedPixelMode then packedMasks mode
  else mode

/-- The masks, and 16 bits for a depth of 15. -/
def setMasks (info : VbeModeInfo) (mode : ModeInfo) : ModeInfo :=
  let mode := colorMasks info mode
  { mode with depth := if mode.depth = 15 then 16 else mode.depth }

/-- A linear framebuffer. -/
def linearMode (version : UInt16) (info : VbeModeInfo) (mode : ModeInfo) : ModeInfo :=
  let mode := { mode with
    modeIdentifier := mode.modeIdentifier ||| idUseLfb
    lfbAddress := info.lfbAddress.toNat }
  if version ≥ 0x0300 then
    let mode := { mode with bytesPerScanline := info.linBytesPerScanline.toNat }
    if mode.modeType = directColorMode then
      { mode with
        redMaskSize := info.linRedMaskSize.toNat, redFieldPos := info.linRedFieldPos.toNat
        greenMaskSize := info.linGreenMaskSize.toNat
        greenFieldPos := info.linGreenFieldPos.toNat
        blueMaskSize := info.linBlueMaskSize.toNat, blueFieldPos := info.linBlueFieldPos.toNat
        reservedMaskSize := info.linReservedMaskSize.toNat
        reservedFieldPos := info.linReservedFieldPos.toNat }
    else mode
  else mode

/-- A window that the whole screen fits in, and its segment. -/
def windowSegment (info : VbeModeInfo) : Option UInt16 :=
  let usable := windowSupported ||| windowReadable ||| windowWriteable
  if info.windowAAttr = usable ∧ info.windowASeg ≠ 0 then some info.windowASeg
  else if info.windowBAttr = usable ∧ info.windowBSeg ≠ 0 then some info.windowBSeg
  else if info.windowASeg ≠ 0 ∧ info.windowAAttr &&& windowSupported = 0 then
    some info.windowASeg
  else if info.windowBSeg ≠ 0 ∧ info.windowBAttr &&& windowSupported = 0 then
    some info.windowBSeg
  else none

def vetFramebuffer (version : UInt16) (info : VbeModeInfo) (mode : ModeInfo) : Vetting :=
  if version ≥ 0x0200 ∧ info.attr attrLinearFrameBuffer then .ok (linearMode version info mode)
  else
    let mode := { mode with
      modeIdentifier := mode.modeIdentifier &&& (0xFFFFFFFF ^^^ idUseLfb) }
    if mode.height * mode.bytesPerScanline % 2^32 > info.windowSize.toNat then .error mode
    else
      match windowSegment info with
      | some seg => .ok { mode with lfbAddress := seg.toNat * 2^4 }
      | none => .error mode

/-- The loop body from the `memset` to the allocation. -/
def vetMode (version id : UInt16) (info : VbeModeInfo) : Vetting :=
  (vetAttributes id info).bind fun mode =>
  (vetGeometry version id info mode).bind fun mode =>
  vetFramebuffer version info (setMasks info mode)

/-- What the firmware says about one mode identifier. -/
structure Answer where
  id : UInt16
  eax : UInt32
  info : VbeModeInfo

/-- The call is not supported. -/
def Answer.unsupported (a : Answer) : Bool := a.eax &&& 0xFF != 0x4F

def Answer.unsuccessful (a : Answer) : Bool := (a.eax >>> 8) &&& 0xFF != 0

/-- The modes put into the list before the VGA mode, newest first, and the
argument of `vbe_switch_mode` if that is called: `none` inside is the local
variable without a value. -/
structure Result where
  added : List ModeInfo
  switched : Option (Option ModeInfo)

/-- The loop over the identifiers; `malloc n` says whether allocation `n` succeeds. -/
def modeLoop (version : UInt16) (malloc : ℕ → Bool) :
    List Answer → ℕ → Option ModeInfo → List ModeInfo → Result
  | [], _, newMode, added => ⟨added, some newMode⟩
  | a :: rest, n, newMode, added =>
    if a.unsupported then ⟨added, none⟩
    else if a.unsuccessful then modeLoop version malloc rest n newMode added
    else
      match vetMode version a.id a.info with
      | .error mode => modeLoop version malloc rest n (some mode) added
      | .ok mode =>
        if !malloc n then ⟨added, none⟩
        else if mode.width > 700 ∧ mode.depth = 32 then ⟨mode :: added, some (some mode)⟩
        else modeLoop version malloc rest (n + 1) (some mode) (mode :: added)

/-- `eaxCard` and `eaxVbe` are what the first two calls leave in `eax`. -/
def vbeInit (eaxCard eaxVbe : UInt32) (block : InfoBlock) (answers : List Answer)
    (malloc : ℕ → Bool) : Result :=
  if eaxCard &&& 0xFF ≠ 0x1A then ⟨[], none⟩
  else if eaxVbe &&& 0xFF ≠ 0x4F ∨ (eaxVbe >>> 8) &&& 0xFF ≠ 0 then ⟨[], none⟩
  else if block.signature ≠ [0x56, 0x45, 0x53, 0x41] then ⟨[], none⟩
  else modeLoop block.version malloc answers 0 none []

/-- Depths that `fb_init` knows a writer for. -/
def Drawable (mode : ModeInfo) : Prop :=
  mode.depth = 8 ∨ mode.depth = 16 ∨ mode.depth = 24 ∨ mode.depth = 32

section Vetting

variable {version id : UInt16} {info : VbeModeInfo} {mode m : ModeInfo}

/-- A mode whose depth, masks and address have not been filled in. -/
structure Blank (mode : ModeInfo) : Prop where
  depth : mode.depth = 0
  mask : mode.redMaskSize = 0
  address : mode.lfbAddress = 0

theorem vetAttributes_ok (h : vetAttributes id info = .ok m) : Blank m := by
  unfold vetAttributes at h
  split_ifs at h
  cases h
  exact ⟨rfl, rfl, rfl⟩

theorem vetAttributes_error (h : vetAttributes id info = .error m) : m.depth = 0 := by
  unfold vetAttributes at h
  split_ifs at h <;> (cases h; rfl)

theorem vesaDefinedModes_bpp : ∀ brief ∈ vesaDefinedModes, brief.bpp = 4 ∨ brief.bpp = 0 ∨
    brief.bpp = 8 ∨ brief.bpp = 15 ∨ brief.bpp = 16 ∨ brief.bpp = 24 := by
  decide

theorem vetPredefined_ok (hb : Blank mode) (h : vetPredefined id mode = .ok m) :
    (m.depth = 0 ∨ m.depth = 15 ∨ Drawable m) ∧ m.lfbAddress = 0 := by
  unfold vetPredefined at h
  split_ifs at h
  split at h
  · cases h
  next brief hbrief =>
    have hbpp := vesaDefinedModes_bpp brief (List.mem_of_getElem? hbrief)
    split_ifs at h with h₄ <;>
    · cases h
      refine ⟨?_, hb.address⟩
      unfold Drawable
      dsimp only
      omega

theorem vetPredefined_error (hb : Blank mode) (h : vetPredefined id mode = .error m) :
    m.depth = 0 := by
  unfold vetPredefined at h
  split_ifs at h
  · cases h
    exact hb.depth
  split at h
  · cases h
    exact hb.depth
  · split_ifs at h
    cases h
    exact hb.depth

theorem reportedMode_depth (hb : Blank mode)
    (hbpp : ¬ (info.memoryModel ≠ mmTextMode ∧ info.bpp ≠ 8 ∧ info.bpp ≠ 15 ∧ info.bpp ≠ 16 ∧
      info.bpp ≠ 24 ∧ info.bpp ≠ 32)) :
    ((reportedMode info mode).depth = 0 ∨ (reportedMode info mode).depth = 15 ∨
      Drawable (reportedMode info mode)) ∧
    (reportedMode info mode).redMaskSize = 0 ∧ (reportedMode info mode).lfbAddress = 0 := by
  unfold reportedMode
  dsimp only
  split_ifs with h₁ h₂
  · exact ⟨.inl rfl, hb.mask, hb.address⟩
  all_goals
    refine ⟨?_, hb.mask, hb.address⟩
    simp only [ne_eq, h₁, not_false_eq_true, true_and, not_and_or, not_not] at hbpp
    unfold Drawable
    rcases hbpp with h | h | h | h | h <;> simp [h]

theorem setPixelClock_keeps : (setPixelClock version info mode).depth = mode.depth ∧
    (setPixelClock version info mode).lfbAddress = mode.lfbAddress := by
  unfold setPixelClock
  split_ifs <;> exact ⟨rfl, rfl⟩

theorem vetReported_ok (hb : Blank mode) (h : vetReported version info mode = .ok m) :
    (m.depth = 0 ∨ m.depth = 15 ∨ Drawable m) ∧ m.lfbAddress = 0 := by
  unfold vetReported at h
  dsimp only at h
  split_ifs at h with h₁ h₂ h₃ h₄ h₅ <;>
  · have hmode := reportedMode_depth hb h₃
    cases h
    unfold Drawable at hmode ⊢
    rw [setPixelClock_keeps.1, setPixelClock_keeps.2]
    exact ⟨hmode.1, hmode.2.2⟩

theorem vetReported_error (hb : Blank mode) (h : vetReported version info mode = .error m) :
    m.depth = 0 ∨ m.modeType = packedPixelMode ∧ m.depth = 8 ∧ m.redMaskSize = 0 := by
  unfold vetReported at h
  dsimp only at h
  split_ifs at h with h₁ h₂ h₃ h₄ h₅
  · cases h
    exact .inl hb.depth
  · cases h
    exact .inl hb.depth
  · cases h
    exact .inl hb.depth
  · cases h
    exact .inr ⟨h₅.2.1, h₅.1, (reportedMode_depth hb h₃).2.1⟩

theorem vetGeometry_ok (hb : Blank mode) (h : vetGeometry version id info mode = .ok m) :
    (m.depth = 0 ∨ m.depth = 15 ∨ Drawable m) ∧ m.lfbAddress = 0 := by
  unfold vetGeometry at h
  split_ifs at h
  · exact vetPredefined_ok hb h
  · exact vetReported_ok hb h

theorem vetGeometry_error (hb : Blank mode) (h : vetGeometry version id info mode = .error m) :
    m.depth = 0 ∨ m.modeType = packedPixelMode ∧ m.depth = 8 ∧ m.redMaskSize = 0 := by
  unfold vetGeometry at h
  split_ifs at h
  · exact .inl (vetPredefined_error hb h)
  · exact vetReported_error hb h

theorem packedMasks_keeps : (packedMasks mode).depth = mode.depth ∧
    (packedMasks mode).modeType = mode.modeType ∧
    (packedMasks mode).lfbAddress = mode.lfbAddress ∧
    (mode.depth = 8 → (packedMasks mode).redMaskSize = 3) := by
  unfold packedMasks
  dsimp only
  split <;> simp_all

theorem colorMasks_keeps : (colorMasks info mode).depth = mode.depth ∧
    (colorMasks info mode).lfbAddress = mode.lfbAddress ∧
    ((colorMasks info mode).modeType = packedPixelMode → mode.depth = 8 →
      (colorMasks info mode).redMaskSize = 3) := by
  obtain ⟨p₁, p₂, p₃, p₄⟩ := @packedMasks_keeps mode
  unfold colorMasks
  split_ifs with h₁ h₂
  · refine ⟨rfl, rfl, fun ht => ?_⟩
    rw [h₁] at ht
    exact absurd ht (by decide)
  · exact ⟨p₁, p₃, fun _ => p₄⟩
  · exact ⟨rfl, rfl, fun ht => absurd ht h₂⟩

/-- The masks make a mode of a known depth, and leave the address. -/
theorem setMasks_spec (hd : mode.depth = 0 ∨ mode.depth = 15 ∨ Drawable mode) :
    ((setMasks info mode).depth = 0 ∨ Drawable (setMasks info mode)) ∧
    (setMasks info mode).lfbAddress = mode.lfbAddress ∧
    ((setMasks info mode).modeType = packedPixelMode → (setMasks info mode).depth = 8 →
      (setMasks info mode).redMaskSize = 3) := by
  obtain ⟨c₁, c₂, c₃⟩ := @colorMasks_keeps info mode
  unfold Drawable at hd ⊢
  unfold setMasks
  dsimp only
  rw [c₁]
  refine ⟨?_, c₂, ?_⟩
  · split_ifs <;> omega
  · intro ht h₈
    refine c₃ ht ?_
    split_ifs at h₈
    · omega
    · exact h₈

theorem testBit_idUseLfb : (0xFFFFFFFF ^^^ idUseLfb).testBit 14 = false := by decide

theorem linearMode_keeps : (linearMode version info mode).depth = mode.depth ∧
    (linearMode version info mode).modeType = mode.modeType ∧
    (linearMode version info mode).modeIdentifier.testBit 14 = true ∧
    (mode.modeType = packedPixelMode →
      (linearMode version info mode).redMaskSize = mode.redMaskSize) := by
  have hbit : (mode.modeIdentifier ||| idUseLfb).testBit 14 = true := by
    have hlfb : idUseLfb.testBit 14 = true := by decide
    rw [Nat.testBit_or, hlfb, Bool.or_true]
  unfold linearMode
  dsimp only
  split_ifs with h₁ h₂
  · refine ⟨rfl, rfl, hbit, fun ht => ?_⟩
    rw [ht] at h₂
    exact absurd h₂ (by decide)
  · exact ⟨rfl, rfl, hbit, fun _ => rfl⟩
  · exact ⟨rfl, rfl, hbit, fun _ => rfl⟩

theorem windowSegment_ne_zero {seg : UInt16} (h : windowSegment info = some seg) : seg ≠ 0 := by
  unfold windowSegment at h
  dsimp only at h
  split_ifs at h with h₁ h₂ h₃ h₄
  · exact Option.some.inj h ▸ h₁.2
  · exact Option.some.inj h ▸ h₂.2
  · exact Option.some.inj h ▸ h₃.1
  · exact Option.some.inj h ▸ h₄.1

/-- An accepted mode has a linear framebuffer or a window. -/
theorem vetFramebuffer_ok (h : vetFramebuffer version info mode = .ok m) :
    m.depth = mode.depth ∧ m.modeType = mode.modeType ∧
    (mode.modeType = packedPixelMode → m.redMaskSize = mode.redMaskSize) ∧
    (m.modeIdentifier.testBit 14 = true ∨ m.lfbAddress ≠ 0) := by
  unfold vetFramebuffer at h
  dsimp only at h
  split_ifs at h
  · cases h
    obtain ⟨l₁, l₂, l₃, l₄⟩ := @linearMode_keeps version info mode
    exact ⟨l₁, l₂, l₄, .inl l₃⟩
  · split at h
    · cases h
      next seg hseg =>
      refine ⟨rfl, rfl, fun _ => rfl, .inr ?_⟩
      have hne : seg.toNat ≠ 0 := fun hz => windowSegment_ne_zero hseg (UInt16.toNat_inj.mp hz)
      dsimp only
      omega
    · cases h

theorem vetFramebuffer_error (h : vetFramebuffer version info mode = .error m) :
    m.modeIdentifier.testBit 14 = false ∧ m.lfbAddress = mode.lfbAddress := by
  have hbit : (mode.modeIdentifier &&& (0xFFFFFFFF ^^^ idUseLfb)).testBit 14 = false := by
    rw [Nat.testBit_and, testBit_idUseLfb, Bool.and_false]
  unfold vetFramebuffer at h
  dsimp only at h
  split_ifs at h
  · cases h
    exact ⟨hbit, rfl⟩
  · split at h
    · cases h
    · cases h
      exact ⟨hbit, rfl⟩

/-- What sets the accepted modes apart from what a rejected one leaves. -/
theorem vetMode_ok (h : vetMode version id info = .ok m) :
    (m.depth = 0 ∨ Drawable m) ∧
    (m.modeType = packedPixelMode → m.depth = 8 → m.redMaskSize = 3) ∧
    (m.modeIdentifier.testBit 14 = true ∨ m.lfbAddress ≠ 0) := by
  unfold vetMode at h
  cases h₁ : vetAttributes id info with
  | error m₁ =>
    rw [h₁] at h
    cases h
  | ok m₁ =>
    rw [h₁] at h
    cases h₂ : vetGeometry version id info m₁ with
    | error m₂ =>
      simp only [Except.bind, h₂] at h
      cases h
    | ok m₂ =>
      simp only [Except.bind, h₂] at h
      obtain ⟨hd, -⟩ := vetGeometry_ok (vetAttributes_ok h₁) h₂
      obtain ⟨s₁, -, s₃⟩ := @setMasks_spec info m₂ hd
      obtain ⟨f₁, f₂, f₃, f₄⟩ := vetFramebuffer_ok h
      refine ⟨?_, ?_, f₄⟩
      · unfold Drawable at s₁ ⊢
        rw [f₁]
        exact s₁
      · rw [f₁, f₂]
        intro ht hd
        rw [f₃ ht, s₃ ht hd]

theorem vetMode_error (h : vetMode version id info = .error m) :
    m.depth = 0 ∨ (m.modeType = packedPixelMode ∧ m.depth = 8 ∧ m.redMaskSize = 0) ∨
    (m.modeIdentifier.testBit 14 = false ∧ m.lfbAddress = 0) := by
  unfold vetMode at h
  cases h₁ : vetAttributes id info with
  | error m₁ =>
    rw [h₁] at h
    cases h
    exact .inl (vetAttributes_error h₁)
  | ok m₁ =>
    rw [h₁] at h
    have hb := vetAttributes_ok h₁
    cases h₂ : vetGeometry version id info m₁ with
    | error m₂ =>
      simp only [Except.bind, h₂] at h
      cases h
      rcases vetGeometry_error hb h₂ with hd | hd
      · exact .inl hd
      · exact .inr (.inl hd)
    | ok m₂ =>
      simp only [Except.bind, h₂] at h
      obtain ⟨hd, ha⟩ := vetGeometry_ok hb h₂
      obtain ⟨-, s₂, -⟩ := @setMasks_spec info m₂ hd
      obtain ⟨f₁, f₂⟩ := vetFramebuffer_error h
      exact .inr (.inr ⟨f₁, by rw [f₂, s₂, ha]⟩)

/-- A rejected mode that could be drawn is none of the accepted ones. -/
theorem rejected_ne_accepted {id' : UInt16} {info' : VbeModeInfo} {m' : ModeInfo}
    (h : vetMode version id info = .error m) (h' : vetMode version id' info' = .ok m')
    (hd : Drawable m) : m ≠ m' := by
  rintro rfl
  obtain ⟨-, hmask, haddress⟩ := vetMode_ok h'
  rcases vetMode_error h with hz | ⟨ht, h₈, hm⟩ | ⟨hbit, hz⟩
  · unfold Drawable at hd
    omega
  · have := hmask ht h₈
    omega
  · rcases haddress with hb | hb
    · rw [hbit] at hb
      cases hb
    · exact hb hz

end Vetting

/-- `new_mode` after the answer was examined. -/
def modeOf (version : UInt16) (a : Answer) : ModeInfo :=
  match vetMode version a.id a.info with
  | .ok mode => mode
  | .error mode => mode

/-- The mode that the answer adds to the list. -/
def accepted (version : UInt16) (a : Answer) : Option ModeInfo :=
  if a.unsuccessful then none
  else (vetMode version a.id a.info).toOption

/-- Large and deep enough to look no further. -/
def stops (version : UInt16) (a : Answer) : Bool :=
  (accepted version a).any fun mode => mode.width > 700 && mode.depth == 32

/-- The answers that the loop gets to, if it does not return early. -/
def examined (version : UInt16) : List Answer → List Answer
  | [] => []
  | a :: rest => if stops version a then [a] else a :: examined version rest

/-- The last answer that describes a mode. -/
def lastDescribed (answers : List Answer) : Option Answer :=
  answers.reverse.find? fun a => !a.unsuccessful

/-- The loop does not return early. -/
def Completes (version : UInt16) (malloc : ℕ → Bool) (n : ℕ) (answers : List Answer) : Prop :=
  (∀ a ∈ examined version answers, a.unsupported = false) ∧
    ∀ k < ((examined version answers).filterMap (accepted version)).length, malloc (n + k) = true

section Loop

variable {version : UInt16} {malloc : ℕ → Bool} {a : Answer} {rest answers : List Answer}

theorem lastDescribed_cons :
    lastDescribed (a :: rest) = (lastDescribed rest).or (if a.unsuccessful then none else some a) := by
  rw [lastDescribed, List.reverse_cons, List.find?_append, lastDescribed]
  congr 1
  cases h : a.unsuccessful <;> simp [h]

/-- What the loop leaves in `new_mode`. -/
def leftBehind (version : UInt16) (newMode : Option ModeInfo) (answers : List Answer) :
    Option ModeInfo := ((lastDescribed answers).map (modeOf version)).or newMode

theorem leftBehind_cons (newMode : Option ModeInfo) :
    leftBehind version newMode (a :: rest) =
      leftBehind version (if a.unsuccessful then newMode else some (modeOf version a)) rest := by
  unfold leftBehind
  rw [lastDescribed_cons]
  cases lastDescribed rest with
  | some b => rfl
  | none => cases a.unsuccessful <;> simp

theorem examined_of_not_stops (h : stops version a = false) :
    examined version (a :: rest) = a :: examined version rest := by
  simp [examined, h]

theorem completes_skip (n : ℕ) (hu : a.unsupported = false) (ha : accepted version a = none) :
    Completes version malloc n (a :: rest) ↔ Completes version malloc n rest := by
  have hstop : stops version a = false := by simp [stops, ha]
  simp [Completes, examined_of_not_stops hstop, ha, hu]

theorem completes_add {mode : ModeInfo} (n : ℕ) (hu : a.unsupported = false)
    (ha : accepted version a = some mode) (hstop : stops version a = false)
    (hm : malloc n = true) :
    Completes version malloc n (a :: rest) ↔ Completes version malloc (n + 1) rest := by
  simp only [Completes, examined_of_not_stops hstop, List.filterMap_cons_some ha,
    List.length_cons, List.forall_mem_cons, hu, true_and]
  refine and_congr_right fun _ => ⟨fun h k hk => ?_, fun h k hk => ?_⟩
  · rw [Nat.add_assoc, Nat.add_comm 1]
    exact h (k + 1) (by omega)
  · cases k with
    | zero => exact hm
    | succ k =>
      rw [Nat.add_comm k, ← Nat.add_assoc]
      exact h k (by omega)

theorem mem_examined_head : a ∈ examined version (a :: rest) := by
  rw [examined]
  split_ifs <;> simp

/-- The loop, read off the answers it examines. -/
theorem modeLoop_eq (n : ℕ) (newMode : Option ModeInfo) (added : List ModeInfo) :
    (Completes version malloc n answers → modeLoop version malloc answers n newMode added =
      ⟨((examined version answers).filterMap (accepted version)).reverse ++ added,
        some (leftBehind version newMode (examined version answers))⟩) ∧
    (¬ Completes version malloc n answers →
      (modeLoop version malloc answers n newMode added).switched = none) := by
  induction answers generalizing n newMode added with
  | nil =>
    refine ⟨fun _ => rfl, fun h => absurd ?_ h⟩
    exact ⟨by simp [examined], by simp [examined]⟩
  | cons a rest ih =>
    rw [modeLoop]
    by_cases hu : a.unsupported = true
    · rw [if_pos hu]
      refine ⟨fun h => ?_, fun _ => rfl⟩
      rw [h.1 a mem_examined_head] at hu
      cases hu
    rw [if_neg hu]
    simp only [Bool.not_eq_true] at hu
    by_cases hs : a.unsuccessful = true
    · have ha : accepted version a = none := by simp [accepted, hs]
      have hstop : stops version a = false := by simp [stops, ha]
      rw [if_pos hs, completes_skip n hu ha, examined_of_not_stops hstop,
        List.filterMap_cons_none ha, leftBehind_cons, if_pos hs]
      exact ih n newMode added
    rw [if_neg hs]
    cases hv : vetMode version a.id a.info with
    | error mode =>
      have ha : accepted version a = none := by simp [accepted, hs, hv, Except.toOption]
      have hstop : stops version a = false := by simp [stops, ha]
      have hmode : modeOf version a = mode := by simp [modeOf, hv]
      rw [completes_skip n hu ha, examined_of_not_stops hstop, List.filterMap_cons_none ha,
        leftBehind_cons, if_neg hs, hmode]
      exact ih n (some mode) added
    | ok mode =>
      have ha : accepted version a = some mode := by simp [accepted, hs, hv, Except.toOption]
      have hmode : modeOf version a = mode := by simp [modeOf, hv]
      dsimp only
      by_cases hm : malloc n = true
      · rw [if_neg (by simp [hm])]
        by_cases hstop : stops version a = true
        · have hbig : mode.width > 700 ∧ mode.depth = 32 := by simpa [stops, ha] using hstop
          have hexam : examined version (a :: rest) = [a] := by simp [examined, hstop]
          rw [if_pos hbig, hexam]
          constructor
          · intro _
            simp [ha, leftBehind, lastDescribed, hs, hmode]
          · intro hnot
            refine absurd ⟨?_, ?_⟩ hnot
            · simpa [hexam] using hu
            · intro k hk
              have hk : k = 0 := by simpa [hexam, ha] using hk
              rw [hk]
              exact hm
        · have hbig : ¬ (mode.width > 700 ∧ mode.depth = 32) := by simpa [stops, ha] using hstop
          simp only [Bool.not_eq_true] at hstop
          rw [if_neg hbig, completes_add n hu ha hstop hm, examined_of_not_stops hstop,
            List.filterMap_cons_some ha, leftBehind_cons, if_neg hs, hmode, List.reverse_cons,
            List.append_assoc, List.singleton_append]
          exact ih (n + 1) (some mode) (mode :: added)
      · rw [if_pos (by simp [hm])]
        refine ⟨fun h => ?_, fun _ => rfl⟩
        refine absurd (h.2 0 ?_) hm
        rw [examined]
        split_ifs <;> simp [ha]

end Loop

/-- A VGA card with a VESA VBE. -/
def HasVbe (eaxCard eaxVbe : UInt32) (block : InfoBlock) : Prop :=
  eaxCard &&& 0xFF = 0x1A ∧ eaxVbe &&& 0xFF = 0x4F ∧ (eaxVbe >>> 8) &&& 0xFF = 0 ∧
    block.signature = [0x56, 0x45, 0x53, 0x41]

/-- The mode switched to, if any, is in the list and can be drawn on. -/
def Vetted (r : Result) : Prop :=
  ∀ newMode, r.switched = some newMode →
    ∃ mode, newMode = some mode ∧ mode ∈ r.added ∧ Drawable mode

theorem vbeInit_eq {eaxCard eaxVbe : UInt32} {block : InfoBlock} (answers : List Answer)
    (malloc : ℕ → Bool) (h : HasVbe eaxCard eaxVbe block) :
    vbeInit eaxCard eaxVbe block answers malloc =
      modeLoop block.version malloc answers 0 none [] := by
  obtain ⟨h₁, h₂, h₃, h₄⟩ := h
  simp [vbeInit, h₁, h₂, h₃, h₄]

theorem vbeInit_none {eaxCard eaxVbe : UInt32} {block : InfoBlock} (answers : List Answer)
    (malloc : ℕ → Bool) (h : ¬ HasVbe eaxCard eaxVbe block) :
    (vbeInit eaxCard eaxVbe block answers malloc).switched = none := by
  unfold vbeInit
  split_ifs with h₁ h₂ h₃
  · rfl
  · rfl
  · rfl
  · simp only [not_or, not_not, ne_eq] at h₁ h₂ h₃
    exact absurd ⟨h₁, h₂.1, h₂.2, h₃⟩ h

/-- For depths that have a writer `fb_init` installs it. -/
theorem fbInit_writer {mode : ModeInfo} (h : Drawable mode) (dev : Fb.Device)
    (malloc : ℕ → Option (Buffer UInt8)) (lfb : Buffer UInt8) :
    (Fb.fbInit dev mode malloc lfb).fbWriteCharDepth.isSome := by
  simp only [Fb.fbInit, Fb.fbClearBuffers, Fb.fbResetForegroundColor, Fb.fbResetBackgroundColor]
  rcases h with h | h | h | h <;> simp [h]

section Last

variable {version : UInt16} {answers : List Answer}

theorem accepted_eq_some {a : Answer} {mode : ModeInfo} :
    accepted version a = some mode ↔
      a.unsuccessful = false ∧ vetMode version a.id a.info = .ok mode := by
  unfold accepted
  cases a.unsuccessful <;> cases vetMode version a.id a.info <;> simp [Except.toOption]

/-- `new_mode` is left with an accepted mode that can be drawn on exactly if the
last described mode is one. -/
theorem leftBehind_vetted :
    (∃ mode, leftBehind version none answers = some mode ∧
      (∃ a ∈ answers, accepted version a = some mode) ∧ Drawable mode) ↔
    ∃ a mode, lastDescribed answers = some a ∧ vetMode version a.id a.info = .ok mode ∧
      mode.depth ≠ 0 := by
  constructor
  · rintro ⟨mode, hleft, ⟨b, -, hb⟩, hd⟩
    rw [leftBehind, Option.or_none] at hleft
    obtain ⟨a, ha, rfl⟩ := Option.map_eq_some_iff.mp hleft
    refine ⟨a, modeOf version a, ha, ?_⟩
    cases hv : vetMode version a.id a.info with
    | ok mode =>
      simp only [modeOf, hv] at hd ⊢
      refine ⟨trivial, ?_⟩
      unfold Drawable at hd
      omega
    | error mode =>
      simp only [modeOf, hv] at hb hd
      exact absurd rfl (rejected_ne_accepted hv (accepted_eq_some.mp hb).2 hd)
  · rintro ⟨a, mode, ha, hv, hd⟩
    have hmem : a ∈ answers := List.mem_reverse.mp (List.mem_of_find?_eq_some ha)
    have hok : a.unsuccessful = false := by simpa using List.find?_some ha
    refine ⟨mode, ?_, ⟨a, hmem, accepted_eq_some.mpr ⟨hok, hv⟩⟩, ?_⟩
    · simp [leftBehind, ha, modeOf, hv]
    · exact (vetMode_ok hv).1.resolve_left hd

end Last

/-- The mode switched to is a vetted one exactly if the last mode described to
the loop is accepted and is no text mode. -/
theorem vbeInit_vetted_iff (eaxCard eaxVbe : UInt32) (block : InfoBlock) (answers : List Answer)
    (malloc : ℕ → Bool) :
    (Vetted (vbeInit eaxCard eaxVbe block answers malloc) ↔
      (HasVbe eaxCard eaxVbe block → Completes block.version malloc 0 answers →
        ∃ a mode, lastDescribed (examined block.version answers) = some a ∧
          vetMode block.version a.id a.info = .ok mode ∧ mode.depth ≠ 0)) ∧
    ∀ mode, Drawable mode → ∀ dev malloc lfb,
      (Fb.fbInit dev mode malloc lfb).fbWriteCharDepth.isSome := by
  refine ⟨?_, fun mode h => fbInit_writer h⟩
  by_cases hvbe : HasVbe eaxCard eaxVbe block
  swap
  · refine ⟨fun _ h => absurd h hvbe, fun _ newMode h => ?_⟩
    rw [vbeInit_none answers malloc hvbe] at h
    cases h
  have hloop : (Completes block.version malloc 0 answers →
      modeLoop block.version malloc answers 0 none [] = _) ∧ _ := modeLoop_eq 0 none []
  rw [vbeInit_eq answers malloc hvbe]
  by_cases hc : Completes block.version malloc 0 answers
  swap
  · refine ⟨fun _ _ h => absurd h hc, fun _ newMode h => ?_⟩
    rw [hloop.2 hc] at h
    cases h
  rw [hloop.1 hc, List.append_nil]
  simp only [Vetted, Option.some.injEq, forall_eq', List.mem_reverse, List.mem_filterMap,
    hvbe, hc, forall_const]
  exact leftBehind_vetted

/-- 640 by 480 pixels of 32 bits in a linear framebuffer. -/
def linearAnswer : Answer where
  id := 0x112
  eax := 0x4F
  info :=
    { attributes := 0x99, bytesPerScanline := 2560, width := 640, height := 480,
      memoryPlanes := 1, bpp := 32, memoryModel := 6, redMaskSize := 8, greenMaskSize := 8,
      blueMaskSize := 8, lfbAddress := 0xE0000000, linBytesPerScanline := 2560 }

/-- A mode with four planes. -/
def planarAnswer : Answer where
  id := 0x102
  eax := 0x4F
  info :=
    { attributes := 0x19, bytesPerScanline := 100, width := 800, height := 600,
      memoryPlanes := 4, bpp := 4, memoryModel := 3 }

/-- What the rejected mode left is switched to, not the accepted one before it. -/
theorem planarLast_not_vetted :
    ¬ Vetted (vbeInit 0x1A 0x4F ⟨[0x56, 0x45, 0x53, 0x41], 0x0300⟩ [linearAnswer, planarAnswer]
      fun _ => true) := by
  have hswitched : (vbeInit 0x1A 0x4F ⟨[0x56, 0x45, 0x53, 0x41], 0x0300⟩
      [linearAnswer, planarAnswer] fun _ => true).switched =
        some (some (startMode planarAnswer.id planarAnswer.info)) := by
    decide +kernel
  intro h
  obtain ⟨mode, hmode, -, hdraw⟩ := h _ hswitched
  cases hmode
  simp [Drawable, startMode] at hdraw

end Gandr.Bios.Vbe
