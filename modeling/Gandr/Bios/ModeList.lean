import Gandr.Bios.Cdrom
import Gandr.Bios.Vbe

/-! The list `modes` of `bal/platform/bios/vbe.c` as it lies in memory. An element
is a link followed by a `struct mode_info`; `vbe_init` copies the mode to the
address of the link, and the link is set afterwards. -/

namespace Gandr.Bios.Vbe

open Cdrom (Memory le read16 read32 read64)
open Fb (ModeInfo)

/-- The two targets of the BIOS platform. -/
inductive Abi where
  | ia32
  | amd64
  deriving DecidableEq

/-- The size of a link, and the offset of `entry` behind it. -/
def Abi.pointer : Abi → ℕ
  | .ia32 => 4
  | .amd64 => 8

/-- The bytes of a `struct mode_info`, which was cleared first. -/
def modeBytes (abi : Abi) (mode : ModeInfo) : List UInt8 :=
  le 4 mode.modeIdentifier ++ le 2 mode.modeType ++ le 2 0 ++ le 4 mode.modeAttributes ++
    le 2 mode.width ++ le 2 mode.height ++ le 1 mode.widthOfCharCell ++
    le 1 mode.heightOfCharCell ++ le 1 mode.depth ++ le 1 0 ++ le 4 mode.bytesPerScanline ++
    le 1 mode.redMaskSize ++ le 1 mode.redFieldPos ++ le 1 mode.greenMaskSize ++
    le 1 mode.greenFieldPos ++ le 1 mode.blueMaskSize ++ le 1 mode.blueFieldPos ++
    le 1 mode.reservedMaskSize ++ le 1 mode.reservedFieldPos ++ le 8 mode.lfbAddress ++
    le 4 mode.maxPixelClock ++
    match abi with
    | .ia32 => []
    | .amd64 => le 4 0

/-- The `struct mode_info` at an address. -/
def readMode (mem : Memory) (a : ℕ) : ModeInfo where
  modeIdentifier := read32 mem a
  modeType := read16 mem (a + 4)
  modeAttributes := read32 mem (a + 8)
  width := read16 mem (a + 12)
  height := read16 mem (a + 14)
  widthOfCharCell := (mem (a + 16)).toNat
  heightOfCharCell := (mem (a + 17)).toNat
  depth := (mem (a + 18)).toNat
  bytesPerScanline := read32 mem (a + 20)
  redMaskSize := (mem (a + 24)).toNat
  redFieldPos := (mem (a + 25)).toNat
  greenMaskSize := (mem (a + 26)).toNat
  greenFieldPos := (mem (a + 27)).toNat
  blueMaskSize := (mem (a + 28)).toNat
  blueFieldPos := (mem (a + 29)).toNat
  reservedMaskSize := (mem (a + 30)).toNat
  reservedFieldPos := (mem (a + 31)).toNat
  lfbAddress := read64 mem (a + 32)
  maxPixelClock := read32 mem (a + 40)

/-- A new element in the block `raw` from `malloc`: the `memcpy` and
`SLIST_INSERT_HEAD`, where `first` is the address of the element before. -/
def newElement (abi : Abi) (raw : Memory) (first : ℕ) (mode : ModeInfo) : Memory :=
  (raw.store 0 (modeBytes abi mode)).store 0 (le abi.pointer first)

/-- The field `entry` of an element. -/
def entryOf (abi : Abi) (element : Memory) : ModeInfo := readMode element abi.pointer

/-- Where the allocated blocks lie, and what is in them before. -/
structure Heap where
  raw : ℕ → Memory
  address : ℕ → ℕ

/-- The elements that were added, newest first. -/
def elements (abi : Abi) (heap : Heap) : List ModeInfo → List Memory
  | [] => []
  | mode :: older =>
    newElement abi (heap.raw older.length) (heap.address older.length) mode ::
      elements abi heap older

/-- What a walk along `modes` reads in the fields `entry`. -/
def modeEntries (abi : Abi) (heap : Heap) (added : List ModeInfo) : List ModeInfo :=
  (elements abi heap added).map (entryOf abi) ++ [vgaMode]

/-- The last filter with the window size in KiB. -/
def filterFramebuffer (version : UInt16) (info : VbeModeInfo) (mode : ModeInfo) : Vetting :=
  if version ≥ 0x0200 ∧ info.attr attrLinearFrameBuffer then .ok (linearMode version info mode)
  else
    let mode := { mode with
      modeIdentifier := mode.modeIdentifier &&& (0xFFFFFFFF ^^^ idUseLfb) }
    if mode.height * mode.bytesPerScanline > info.windowSize.toNat * 1024 then .error mode
    else
      match windowSegment info with
      | some seg => .ok { mode with lfbAddress := seg.toNat * 2^4 }
      | none => .error mode

/-- The filters as the header has the units. -/
def filterMode (version id : UInt16) (info : VbeModeInfo) : Vetting :=
  (vetAttributes id info).bind fun mode =>
  (vetGeometry version id info mode).bind fun mode =>
  filterFramebuffer version info (setMasks info mode)

/-- The mode that an answer describes, if it passes the filters. -/
def passes (version : UInt16) (a : Answer) : Option ModeInfo :=
  if a.unsuccessful then none
  else (filterMode version a.id a.info).toOption

/-- The answers that the loop looks at: it returns at one that says that the call
is not supported, and breaks after a large and deep mode. -/
def looked (version : UInt16) : List Answer → List Answer
  | [] => []
  | a :: rest =>
    if a.unsupported then []
    else if stops version a then [a]
    else a :: looked version rest

/-- The list has one element for each mode that passes, newest first, ahead of the
VGA mode, and reads as the modes that were computed. -/
def ExactList (abi : Abi) (heap : Heap) (version : UInt16) (answers : List Answer) : Prop :=
  modeEntries abi heap (modeLoop version (fun _ => true) answers 0 none []).added =
    ((looked version answers).filterMap (passes version)).reverse ++ [vgaMode]

section Accepted

variable {version id : UInt16} {info : VbeModeInfo} {mode m : ModeInfo}

/-- No mask has been filled in. -/
structure Unmasked (mode : ModeInfo) : Prop where
  redSize : mode.redMaskSize = 0
  redPos : mode.redFieldPos = 0
  greenSize : mode.greenMaskSize = 0
  greenPos : mode.greenFieldPos = 0
  blueSize : mode.blueMaskSize = 0
  bluePos : mode.blueFieldPos = 0
  reservedSize : mode.reservedMaskSize = 0
  reservedPos : mode.reservedFieldPos = 0

/-- The fields are within the types that they were read from. -/
structure InRange (mode : ModeInfo) : Prop where
  attributes : mode.modeAttributes < 16
  width : mode.width < 2^16
  height : mode.height < 2^16
  cellWidth : mode.widthOfCharCell < 2^8
  cellHeight : mode.heightOfCharCell < 2^8
  depth : mode.depth < 2^8
  scanline : mode.bytesPerScanline < 2^16

/-- Only a text mode has no depth, and it has no masks. -/
def TextOrDeep (mode : ModeInfo) : Prop :=
  mode.depth = 0 → mode.modeType = vgaTextMode ∧ Unmasked mode

theorem startMode_inRange : InRange (startMode id info) where
  attributes := by
    simp only [startMode]
    split_ifs <;> decide
  width := by simp [startMode]
  height := by simp [startMode]
  cellWidth := by simp [startMode]
  cellHeight := by simp [startMode]
  depth := by simp [startMode]
  scanline := info.bytesPerScanline.toNat_lt

theorem startMode_unmasked : Unmasked (startMode id info) := ⟨rfl, rfl, rfl, rfl, rfl, rfl, rfl, rfl⟩

theorem vetAttributes_inRange (h : vetAttributes id info = .ok m) : InRange m ∧ Unmasked m := by
  unfold vetAttributes at h
  split_ifs at h
  cases h
  exact ⟨startMode_inRange, startMode_unmasked⟩

theorem vesaDefinedModes_small : ∀ brief ∈ vesaDefinedModes, brief.width < 2^16 ∧
    brief.height < 2^16 ∧ brief.bpp < 2^8 ∧ (brief.bpp = 0 → brief.text = true) := by
  decide

theorem vetPredefined_inRange (hr : InRange mode) (hu : Unmasked mode)
    (h : vetPredefined id mode = .ok m) : InRange m ∧ TextOrDeep m := by
  unfold vetPredefined at h
  split_ifs at h
  split at h
  · cases h
  · next brief hb =>
    obtain ⟨h₁, h₂, h₃, h₄⟩ := vesaDefinedModes_small brief (List.mem_of_getElem? hb)
    split_ifs at h with h₅ ht
    · cases h
      refine ⟨⟨hr.attributes, h₁, h₂, hr.cellWidth, hr.cellHeight, h₃, hr.scanline⟩, fun _ => ?_⟩
      exact ⟨rfl, hu.1, hu.2, hu.3, hu.4, hu.5, hu.6, hu.7, hu.8⟩
    · cases h
      refine ⟨⟨hr.attributes, h₁, h₂, hr.cellWidth, hr.cellHeight, h₃, hr.scanline⟩, fun hd => ?_⟩
      exact absurd (h₄ hd) ht

theorem reportedMode_inRange (hr : InRange mode) (hu : Unmasked mode)
    (hbpp : ¬ (info.memoryModel ≠ mmTextMode ∧ info.bpp ≠ 8 ∧ info.bpp ≠ 15 ∧ info.bpp ≠ 16 ∧
      info.bpp ≠ 24 ∧ info.bpp ≠ 32)) :
    InRange (reportedMode info mode) ∧ TextOrDeep (reportedMode info mode) := by
  have hw := info.width.toNat_lt
  have hh := info.height.toNat_lt
  unfold reportedMode
  dsimp only
  split_ifs with ht hp
  · refine ⟨⟨hr.attributes, hw, hh, info.widthOfCharCell.toNat_lt, info.heightOfCharCell.toNat_lt,
      Nat.two_pow_pos 8, hr.scanline⟩, fun _ => ?_⟩
    exact ⟨rfl, hu.1, hu.2, hu.3, hu.4, hu.5, hu.6, hu.7, hu.8⟩
  all_goals
    refine ⟨⟨hr.attributes, hw, hh, hr.cellWidth, hr.cellHeight, info.bpp.toNat_lt,
      hr.scanline⟩, fun hd => ?_⟩
    have hzero : info.bpp = 0 := UInt8.toNat_inj.mp hd
    exact absurd ⟨ht, by rw [hzero]; decide⟩ hbpp

theorem setPixelClock_inRange (h : InRange mode ∧ TextOrDeep mode) :
    InRange (setPixelClock version info mode) ∧ TextOrDeep (setPixelClock version info mode) := by
  unfold setPixelClock
  split_ifs
  · obtain ⟨hr, ht⟩ := h
    refine ⟨⟨hr.1, hr.2, hr.3, hr.4, hr.5, hr.6, hr.7⟩, fun hd => ?_⟩
    obtain ⟨h₁, hu⟩ := ht hd
    exact ⟨h₁, hu.1, hu.2, hu.3, hu.4, hu.5, hu.6, hu.7, hu.8⟩
  · exact h

theorem vetReported_inRange (hr : InRange mode) (hu : Unmasked mode)
    (h : vetReported version info mode = .ok m) : InRange m ∧ TextOrDeep m := by
  unfold vetReported at h
  dsimp only at h
  split_ifs at h with h₁ h₂ h₃ h₄ h₅
  · cases h
    obtain ⟨hr, ht⟩ := reportedMode_inRange hr hu h₃
    refine setPixelClock_inRange ⟨⟨Nat.and_le_left.trans_lt hr.1, hr.2, hr.3, hr.4, hr.5, hr.6,
      hr.7⟩, fun hd => ?_⟩
    obtain ⟨h₁, hu⟩ := ht hd
    exact ⟨h₁, hu.1, hu.2, hu.3, hu.4, hu.5, hu.6, hu.7, hu.8⟩
  · cases h
    exact setPixelClock_inRange (reportedMode_inRange hr hu h₃)

theorem vetGeometry_inRange (hr : InRange mode) (hu : Unmasked mode)
    (h : vetGeometry version id info mode = .ok m) : InRange m ∧ TextOrDeep m := by
  unfold vetGeometry at h
  split_ifs at h
  · exact vetPredefined_inRange hr hu h
  · exact vetReported_inRange hr hu h

theorem packedMasks_inRange (hr : InRange mode) : InRange (packedMasks mode) := by
  unfold packedMasks
  split
  all_goals exact ⟨hr.1, hr.2, hr.3, hr.4, hr.5, hr.6, hr.7⟩

theorem colorMasks_inRange (hr : InRange mode) : InRange (colorMasks info mode) := by
  unfold colorMasks
  split_ifs
  · exact ⟨hr.1, hr.2, hr.3, hr.4, hr.5, hr.6, hr.7⟩
  · exact packedMasks_inRange hr
  · exact hr

theorem colorMasks_text (h : mode.modeType = vgaTextMode) : colorMasks info mode = mode := by
  rw [colorMasks, h, if_neg (by decide), if_neg (by decide)]

theorem setMasks_inRange (h : InRange mode ∧ TextOrDeep mode) :
    InRange (setMasks info mode) ∧ TextOrDeep (setMasks info mode) := by
  have hr : InRange (colorMasks info mode) := colorMasks_inRange h.1
  refine ⟨⟨hr.1, hr.2, hr.3, hr.4, hr.5, ?_, hr.7⟩, fun hd => ?_⟩
  · have := hr.depth
    simp only [setMasks]
    split_ifs <;> omega
  · have hzero : (colorMasks info mode).depth = 0 := by
      simp only [setMasks] at hd
      split_ifs at hd
      exact hd
    rw [colorMasks_keeps.1] at hzero
    obtain ⟨h₁, hu⟩ := h.2 hzero
    rw [setMasks, colorMasks_text h₁]
    exact ⟨h₁, hu.1, hu.2, hu.3, hu.4, hu.5, hu.6, hu.7, hu.8⟩

theorem linearMode_inRange (h : InRange mode ∧ TextOrDeep mode) :
    InRange (linearMode version info mode) ∧ TextOrDeep (linearMode version info mode) := by
  obtain ⟨hr, ht⟩ := h
  have hl := info.linBytesPerScanline.toNat_lt
  unfold linearMode
  dsimp only
  split_ifs with hv hc
  · refine ⟨⟨hr.1, hr.2, hr.3, hr.4, hr.5, hr.6, hl⟩, fun hd => ?_⟩
    rw [(ht hd).1] at hc
    exact absurd hc (by decide)
  · refine ⟨⟨hr.1, hr.2, hr.3, hr.4, hr.5, hr.6, hl⟩, fun hd => ?_⟩
    obtain ⟨h₁, hu⟩ := ht hd
    exact ⟨h₁, hu.1, hu.2, hu.3, hu.4, hu.5, hu.6, hu.7, hu.8⟩
  · refine ⟨⟨hr.1, hr.2, hr.3, hr.4, hr.5, hr.6, hr.7⟩, fun hd => ?_⟩
    obtain ⟨h₁, hu⟩ := ht hd
    exact ⟨h₁, hu.1, hu.2, hu.3, hu.4, hu.5, hu.6, hu.7, hu.8⟩

theorem filterFramebuffer_inRange (h : InRange mode ∧ TextOrDeep mode)
    (hm : filterFramebuffer version info mode = .ok m) : InRange m ∧ TextOrDeep m := by
  unfold filterFramebuffer at hm
  dsimp only at hm
  split_ifs at hm
  · cases hm
    exact linearMode_inRange h
  · obtain ⟨hr, ht⟩ := h
    split at hm
    · cases hm
      refine ⟨⟨hr.1, hr.2, hr.3, hr.4, hr.5, hr.6, hr.7⟩, fun hd => ?_⟩
      obtain ⟨h₁, hu⟩ := ht hd
      exact ⟨h₁, hu.1, hu.2, hu.3, hu.4, hu.5, hu.6, hu.7, hu.8⟩
    · cases hm

/-- What comes before the last filter. -/
theorem vetMode_cases (h : vetMode version id info = .ok m ∨ filterMode version id info = .ok m) :
    ∃ mode, (InRange mode ∧ TextOrDeep mode) ∧
      vetMode version id info = vetFramebuffer version info mode ∧
      filterMode version id info = filterFramebuffer version info mode := by
  unfold vetMode filterMode at *
  cases h₁ : vetAttributes id info with
  | error m₁ =>
    rw [h₁] at h
    rcases h with h | h <;> cases h
  | ok m₁ =>
    rw [h₁] at h
    obtain ⟨hr, hu⟩ := vetAttributes_inRange h₁
    cases h₂ : vetGeometry version id info m₁ with
    | error m₂ =>
      simp only [Except.bind, h₂] at h
      rcases h with h | h <;> cases h
    | ok m₂ =>
      refine ⟨setMasks info m₂, setMasks_inRange (vetGeometry_inRange hr hu h₂), ?_, ?_⟩
      all_goals simp only [Except.bind, h₂]

theorem filterMode_inRange (h : filterMode version id info = .ok m) : InRange m ∧ TextOrDeep m := by
  obtain ⟨mode, hmode, -, hf⟩ := vetMode_cases (.inr h)
  exact filterFramebuffer_inRange hmode (hf ▸ h)

/-- The code compares the bytes with a number of KiB, so it lets fewer modes pass. -/
theorem vetFramebuffer_filter (hr : InRange mode) (h : vetFramebuffer version info mode = .ok m) :
    filterFramebuffer version info mode = .ok m := by
  have hsize : mode.height * mode.bytesPerScanline < 2^16 * 2^16 :=
    Nat.mul_lt_mul'' hr.height hr.scanline
  unfold vetFramebuffer at h
  unfold filterFramebuffer
  dsimp only at h ⊢
  rw [Nat.mod_eq_of_lt (by omega)] at h
  split_ifs at h ⊢ with hl hw hw'
  · exact h
  · exact absurd hw' (by omega)
  · exact h

theorem vetMode_filter (h : vetMode version id info = .ok m) :
    filterMode version id info = .ok m := by
  obtain ⟨mode, hmode, hv, hf⟩ := vetMode_cases (.inl h)
  rw [hf]
  exact vetFramebuffer_filter hmode.1 (hv ▸ h)

end Accepted

section Shifted

variable {abi : Abi} {raw : Memory} {first : ℕ} {mode : ModeInfo}

theorem newElement_apply {k : ℕ} (h : abi.pointer ≤ k) :
    newElement abi raw first mode k = ((modeBytes abi mode)[k]?).getD (raw k) := by
  rw [newElement, Cdrom.store_outside]
  · simp [Buffer.store]
  · right
    rw [Cdrom.length_le, Nat.zero_add]
    exact h

theorem le_one (x : ℕ) : le 1 x = [UInt8.ofNat x] := by
  simp [le]

theorem le_two (x : ℕ) : le 2 x = [UInt8.ofNat x, UInt8.ofNat (x / 256)] := by
  simp [le, List.range_succ]

theorem le_four (x : ℕ) : le 4 x = [UInt8.ofNat x, UInt8.ofNat (x / 256),
    UInt8.ofNat (x / 65536), UInt8.ofNat (x / 16777216)] := by
  simp [le, List.range_succ]

/-- The bytes of the mode up to its masks, as numbers. -/
def byteValues (mode : ModeInfo) : List ℕ :=
  let id := mode.modeIdentifier
  let attributes := mode.modeAttributes
  let scanline := mode.bytesPerScanline
  [id, id / 256, id / 65536, id / 16777216, mode.modeType, mode.modeType / 256, 0, 0 / 256,
    attributes, attributes / 256, attributes / 65536, attributes / 16777216, mode.width,
    mode.width / 256, mode.height, mode.height / 256, mode.widthOfCharCell,
    mode.heightOfCharCell, mode.depth, 0, scanline, scanline / 256, scanline / 65536,
    scanline / 16777216, mode.redMaskSize, mode.redFieldPos, mode.greenMaskSize,
    mode.greenFieldPos, mode.blueMaskSize, mode.blueFieldPos, mode.reservedMaskSize,
    mode.reservedFieldPos]

theorem modeBytes_eq (abi : Abi) (mode : ModeInfo) :
    ∃ rest, modeBytes abi mode = (byteValues mode).map UInt8.ofNat ++ rest := by
  unfold modeBytes
  generalize (match abi with | .ia32 => [] | .amd64 => le 4 0) = padding
  use le 8 mode.lfbAddress ++ le 4 mode.maxPixelClock ++ padding
  simp only [byteValues, le_one, le_two, le_four, List.append_assoc, List.cons_append,
    List.nil_append, List.map_cons, List.map_nil]

theorem newElement_toNat {k : ℕ} (h : abi.pointer ≤ k) (hk : k < 32) :
    (newElement abi raw first mode k).toNat = (byteValues mode).getD k 0 % 256 := by
  obtain ⟨rest, hrest⟩ := modeBytes_eq abi mode
  have hlen : k < (byteValues mode).length := hk
  rw [newElement_apply h, hrest, List.getElem?_append_left (by simpa using hlen), List.getElem?_map,
    List.getD_eq_getElem?_getD, List.getElem?_eq_getElem hlen]
  exact UInt8.toNat_ofNat'

/-- A field of `entry` is read a link's length behind where it was put. -/
theorem entryOf_fields (h : entryOf abi (newElement abi raw first mode) = mode) :
    let v := fun k => (byteValues mode).getD (abi.pointer + k) 0 % 256
    mode.modeType = v 4 + 256 * v 5 ∧
      mode.modeAttributes = v 8 + 256 * v 9 + 2^16 * (v 10 + 256 * v 11) ∧
      mode.width = v 12 + 256 * v 13 ∧ mode.height = v 14 + 256 * v 15 ∧
      mode.widthOfCharCell = v 16 ∧ mode.heightOfCharCell = v 17 ∧ mode.depth = v 18 ∧
      mode.bytesPerScanline = v 20 + 256 * v 21 + 2^16 * (v 22 + 256 * v 23) := by
  have hlow : abi.pointer ≤ 8 := by cases abi <;> decide
  have hv (k : ℕ) (hk : k < 24) : (byteValues mode).getD (abi.pointer + k) 0 % 256 =
      (newElement abi raw first mode (abi.pointer + k)).toNat :=
    (newElement_toNat (Nat.le_add_right _ _) (by omega)).symm
  simp (disch := decide) only [hv]
  refine ⟨?_, ?_, ?_, ?_, ?_, ?_, ?_, ?_⟩
  · exact (congrArg ModeInfo.modeType h).symm
  · exact (congrArg ModeInfo.modeAttributes h).symm
  · exact (congrArg ModeInfo.width h).symm
  · exact (congrArg ModeInfo.height h).symm
  · exact (congrArg ModeInfo.widthOfCharCell h).symm
  · exact (congrArg ModeInfo.heightOfCharCell h).symm
  · exact (congrArg ModeInfo.depth h).symm
  · exact (congrArg ModeInfo.bytesPerScanline h).symm

/-- So `entry` is never the mode that was computed. -/
theorem entryOf_ne (hr : InRange mode) (ht : TextOrDeep mode) :
    entryOf abi (newElement abi raw first mode) ≠ mode := by
  intro h
  obtain ⟨htype, hattr, hwidth, hheight, hcw, hch, hdepth, hscan⟩ := entryOf_fields h
  have hscanline := hr.scanline
  have hattributes := hr.attributes
  have htext : vgaTextMode = 2 := rfl
  cases abi with
  | ia32 =>
    -- the depth comes from the upper half of the scanline, the scanline from the masks
    change mode.depth = mode.bytesPerScanline / 65536 % 256 at hdepth
    obtain ⟨h₁, hu⟩ := ht (by omega)
    change mode.bytesPerScanline = mode.redMaskSize % 256 + 256 * (mode.redFieldPos % 256) +
      2^16 * (mode.greenMaskSize % 256 + 256 * (mode.greenFieldPos % 256)) at hscan
    rw [hu.redSize, hu.redPos, hu.greenSize, hu.greenPos] at hscan
    change mode.widthOfCharCell = mode.bytesPerScanline % 256 at hcw
    change mode.heightOfCharCell = mode.bytesPerScanline / 256 % 256 at hch
    change mode.width = mode.widthOfCharCell % 256 + 256 * (mode.heightOfCharCell % 256) at hwidth
    change mode.height = mode.depth % 256 + 256 * (0 % 256) at hheight
    change mode.modeAttributes = mode.width % 256 + 256 * (mode.width / 256 % 256) +
      2^16 * (mode.height % 256 + 256 * (mode.height / 256 % 256)) at hattr
    change mode.modeType = mode.modeAttributes % 256 + 256 * (mode.modeAttributes / 256 % 256)
      at htype
    omega
  | amd64 =>
    -- the attributes come from the cell and the depth, the scanline from the masks
    have hd := hr.depth
    change mode.modeAttributes = mode.widthOfCharCell % 256 + 256 * (mode.heightOfCharCell % 256) +
      2^16 * (mode.depth % 256 + 256 * (0 % 256)) at hattr
    obtain ⟨h₁, hu⟩ := ht (by omega)
    change mode.bytesPerScanline = mode.blueMaskSize % 256 + 256 * (mode.blueFieldPos % 256) +
      2^16 * (mode.reservedMaskSize % 256 + 256 * (mode.reservedFieldPos % 256)) at hscan
    rw [hu.blueSize, hu.bluePos, hu.reservedSize, hu.reservedPos] at hscan
    change mode.width = mode.bytesPerScanline % 256 + 256 * (mode.bytesPerScanline / 256 % 256)
      at hwidth
    change mode.modeType = mode.width % 256 + 256 * (mode.width / 256 % 256) at htype
    omega

end Shifted

section Exact

variable {abi : Abi} {heap : Heap} {version : UInt16} {answers : List Answer}

theorem accepted_passes {a : Answer} {mode : ModeInfo} (h : accepted version a = some mode) :
    passes version a = some mode := by
  obtain ⟨hs, hv⟩ := accepted_eq_some.mp h
  simp [passes, hs, vetMode_filter hv, Except.toOption]

theorem passes_inRange {a : Answer} {mode : ModeInfo} (h : passes version a = some mode) :
    InRange mode ∧ TextOrDeep mode := by
  unfold passes at h
  split_ifs at h
  cases hf : filterMode version a.id a.info with
  | error m =>
    rw [hf] at h
    cases h
  | ok m =>
    rw [hf] at h
    cases h
    exact filterMode_inRange hf

/-- With enough memory the loop adds the accepted modes of the answers it looks at. -/
theorem modeLoop_added (n : ℕ) (newMode : Option ModeInfo) (added : List ModeInfo) :
    (modeLoop version (fun _ => true) answers n newMode added).added =
      ((looked version answers).filterMap (accepted version)).reverse ++ added := by
  induction answers generalizing n newMode added with
  | nil => rfl
  | cons a rest ih =>
    rw [modeLoop, looked]
    by_cases hu : a.unsupported = true
    · rw [if_pos hu, if_pos hu]
      rfl
    rw [if_neg hu, if_neg hu]
    by_cases hs : a.unsuccessful = true
    · have ha : accepted version a = none := by simp [accepted, hs]
      have hstop : stops version a = false := by simp [stops, ha]
      rw [if_pos hs, ih, hstop, if_neg Bool.false_ne_true, List.filterMap_cons_none ha]
    rw [if_neg hs]
    cases hv : vetMode version a.id a.info with
    | error mode =>
      have ha : accepted version a = none := by simp [accepted, hs, hv, Except.toOption]
      have hstop : stops version a = false := by simp [stops, ha]
      rw [hstop, if_neg Bool.false_ne_true, List.filterMap_cons_none ha]
      exact ih n (some mode) added
    | ok mode =>
      have ha : accepted version a = some mode := by simp [accepted, hs, hv, Except.toOption]
      have hstop : (mode.width > 700 ∧ mode.depth = 32) ↔ stops version a = true := by
        simp [stops, ha]
      dsimp only
      rw [if_neg (by decide)]
      by_cases hbig : mode.width > 700 ∧ mode.depth = 32
      · rw [if_pos hbig, if_pos (hstop.mp hbig), List.filterMap_cons_some ha]
        rfl
      · rw [if_neg hbig, if_neg (mt hstop.mpr hbig), ih, List.filterMap_cons_some ha,
          List.reverse_cons, List.append_assoc, List.singleton_append]

/-- The walk along an element that was added reads something else. -/
theorem modeEntries_ne {added : List ModeInfo} {mode : ModeInfo} {tail : List ModeInfo}
    (h : InRange mode ∧ TextOrDeep mode) :
    modeEntries abi heap (mode :: added) ≠ mode :: tail := by
  intro heq
  exact entryOf_ne h.1 h.2 (List.cons.inj heq).1

theorem length_modeEntries (added : List ModeInfo) :
    (modeEntries abi heap added).length = added.length + 1 := by
  have helements : (elements abi heap added).length = added.length := by
    induction added with
    | nil => rfl
    | cons mode older ih => rw [elements, List.length_cons, List.length_cons, ih]
  rw [modeEntries, List.length_append, List.length_map, helements, List.length_singleton]

theorem accepted_sublist (l : List Answer) :
    (l.filterMap (accepted version)).Sublist (l.filterMap (passes version)) := by
  induction l with
  | nil => exact List.Sublist.slnil
  | cons a l ih =>
    cases ha : accepted version a with
    | some mode =>
      rw [List.filterMap_cons_some ha, List.filterMap_cons_some (accepted_passes ha)]
      exact ih.cons_cons mode
    | none =>
      rw [List.filterMap_cons_none ha, List.filterMap_cons]
      split
      · exact ih
      · exact ih.cons _

/-- The code's list is exact only where it stays empty but for the VGA mode. -/
theorem exactList_iff (abi : Abi) (heap : Heap) (version : UInt16) (answers : List Answer) :
    ExactList abi heap version answers ↔
      ∀ a ∈ looked version answers, passes version a = none := by
  rw [ExactList, modeLoop_added, List.append_nil, ← List.filterMap_eq_nil_iff]
  constructor
  · intro h
    have hlength := congrArg List.length h
    rw [length_modeEntries, List.length_append, List.length_reverse, List.length_reverse,
      List.length_singleton] at hlength
    -- as many modes were added as pass, so those that pass were added
    have hsub : ((looked version answers).filterMap (accepted version)).Sublist
        ((looked version answers).filterMap (passes version)) := accepted_sublist _
    rw [hsub.eq_of_length (by omega)] at h
    by_contra hne
    obtain ⟨mode, tail, htail⟩ := List.exists_cons_of_ne_nil (mt List.reverse_eq_nil_iff.mp hne)
    have hmem : mode ∈ (looked version answers).filterMap (passes version) := by
      rw [← List.mem_reverse, htail]
      exact List.mem_cons_self
    obtain ⟨a, -, ha⟩ := List.mem_filterMap.mp hmem
    rw [htail] at h
    exact modeEntries_ne (passes_inRange ha) h
  · intro h
    have hnone : (looked version answers).filterMap (accepted version) = [] :=
      List.sublist_nil.mp (h ▸ accepted_sublist (looked version answers))
    rw [h, hnone]
    rfl

/-- A mode of 32 bits in a linear framebuffer passes, and its entry is garbled. -/
theorem linearAnswer_not_exact :
    ¬ ExactList .ia32 ⟨fun _ _ => 0, fun _ => 0⟩ 0x0300 [linearAnswer] := by
  intro h
  have hdepth := congrArg (fun l => (l.head?.map ModeInfo.depth)) h
  revert hdepth
  decide +kernel

end Exact

end Gandr.Bios.Vbe
