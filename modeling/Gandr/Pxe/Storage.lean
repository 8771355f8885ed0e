import Gandr.Stage1.Boot
import Gandr.Stage1.Output

/-! The boot files of a network: `bal/platform/bios/stage1/pxe/storage.S`. The
firmware is a parameter; `mem` is memory without the stack of this code. The data
segment is 0, and so is the extra segment but in `storage_init`. -/

namespace Gandr.Pxe

open Bios.Cdrom (Memory le read16 read32)
open Bios.Bytes
open Stage1 (Machine itoa outputString)

/-- Where the linker puts `pxe_cached_info`, in `.data`, and the variables in `.bss`,
which follow one another from `pxe_api_addr` on. -/
structure Image where
  cachedInfo : ℕ
  bss : ℕ
  cachedInfo_le : cachedInfo + 20 ≤ bss
  bss_le : bss + 161 ≤ 0x3000

namespace Image

variable (I : Image)

def apiAddr : ℕ := I.bss

def flags : ℕ := I.bss + 4

def tftpOpen : ℕ := I.bss + 5

def filename : ℕ := I.tftpOpen + 10

def port : ℕ := I.tftpOpen + 138

def packetSize : ℕ := I.tftpOpen + 140

def tftpRead : ℕ := I.bss + 147

def fileSize : ℕ := I.bss + 157

end Image

/-- A far call of the firmware: the entry point, the opcode and the address of the
parameters; it answers with `ax`. -/
abbrev Api (σ : Type) := (entry opcode params : ℕ) → Machine σ → UInt16 × Machine σ

inductive Abort where
  /-- `abort_boot` -/
  | message (text : String)
  /-- `pxe_error` -/
  | pxeError (opcode : ℕ) (file : Option CString) (status : UInt16)
  deriving DecidableEq

def noPxe : Abort := .message "Boot mechanism does not appear to be PXE compliant."

/-- What is printed before the machine is halted. -/
def Abort.text : Abort → CString
  | .message text => outputString (CString.ofString "Gandr stage1 fatal error. ") ++
      outputString (CString.ofString text)
  | .pxeError opcode file status =>
    outputString (CString.ofString "Gandr stage1 fatal error. ") ++
      (file.map fun name => outputString (CString.ofString "File ") ++ outputString name ++
        outputString (CString.ofString ": ")).getD [] ++
      outputString (CString.ofString "PXE function 0x" ++ (itoa (UInt32.ofNat opcode)).1 ++
        CString.ofString " returned status 0x" ++ (itoa status.toUInt32).1 ++ CString.ofString ".")

section Storage

variable {σ : Type} (I : Image) (api : Api σ)

def pxeApi (opcode params : ℕ) (m : Machine σ) : UInt16 × Machine σ :=
  api (read32 m.mem I.apiAddr) opcode params m

/-- A call and the two tests after it: the status is in `ax`, or in the first word of
the parameters. -/
def request (opcode params : ℕ) (m : Machine σ) : UInt16 × Machine σ :=
  let r := pxeApi I api opcode params m
  (if r.1 ≠ 0 then r.1 else UInt16.ofNat (read16 r.2.mem params), r.2)

/-- The file name that is passed to the firmware. -/
def name (mem : Memory) : CString := cString (fun i => mem (I.filename + i)) (2^16)

def linear (seg off : UInt16) : ℕ := seg.toNat * 2^4 + off.toNat

/-- How often `loop` runs with the count `cx`. -/
def rounds (cx : ℕ) : ℕ := if cx = 0 then 2^16 else cx

/-- The loops at `.checksum` and `.new_version_checksum`. -/
def checksum (mem : Memory) (es : UInt16) : (n : ℕ) → (bx : UInt16) → (al : UInt8) → UInt8
  | 0, _, al => al
  | n + 1, bx, al => checksum mem es n (bx + 1) (al + mem (linear es bx))

/-- The sum over the length that is at `offset`. -/
def structureSum (mem : Memory) (es bx : UInt16) (offset : UInt16) : UInt8 :=
  checksum mem es (rounds (mem (linear es (bx + offset))).toNat) bx 0

/-- `.pxenv`. -/
def pxenv (es bx : UInt16) (mem : Memory) : Memory :=
  mem.store I.apiAddr (le 4 (read32 mem (linear es (bx + 0x0A))))

/-- `.new_version`, with the `!PXE` structure at `es:bx`. -/
def newVersion (es bx : UInt16) (mem : Memory) : Option Memory :=
  if read32 mem (linear es bx) ≠ 0x45585021 then none
  else if structureSum mem es bx 4 ≠ 0 then none
  else
    let mem := mem.store I.apiAddr (le 4 (read32 mem (linear es (bx + 0x10))))
    some (mem.store I.flags [mem I.flags ||| 1])

/-- `.cached_info`; the status is lost. -/
def getCachedInfo (m : Machine σ) : Except Abort (Machine σ) :=
  let r := request I api 0x71 I.cachedInfo m
  if r.1 ≠ 0 then .error (.pxeError 0x71 none 0)
  else
    let mem := r.2.mem
    let si := UInt16.ofNat (read16 mem (I.cachedInfo + 6)) + 20
    let ds := UInt16.ofNat (read16 mem (I.cachedInfo + 8))
    let mem := mem.store (I.cachedInfo + 12) (le 4 (read32 mem (linear ds si)))
    let mem := mem.store (I.cachedInfo + 16) (le 4 (read32 mem (linear ds (si + 4))))
    .ok { r.2 with mem := mem }

/-- `storage_init`, with `ss:sp` as it is entered. -/
def storageInit (es bx ss sp : UInt16) (m : Machine σ) : Except Abort (Machine σ) :=
  let bp := sp + 4
  let mem := m.mem
  if read32 mem (linear es bx) ≠ 0x4E455850 then .error noPxe
  else if read16 mem (linear es (bx + 4)) ≠ 0x2B56 then .error noPxe
  else if structureSum mem es bx 8 ≠ 0 then .error noPxe
  else
    let mem :=
      if read16 mem (linear es (bx + 6)) ≥ 0x0201 then
        let ax := UInt16.ofNat (read16 mem (linear ss bp))
        let newBx := UInt16.ofNat (read16 mem (linear ss (bp + 2)))
        (newVersion I ax newBx mem).getD (pxenv I es bx mem)
      else pxenv I es bx mem
    getCachedInfo I api { m with mem := mem }

/-- `strncpy` to `es:di`, for `n` rounds of `loop`. -/
def strncpy : (n : ℕ) → (ds si di : UInt16) → Memory → Memory
  | 0, _, _, _, mem => mem
  | n + 1, ds, si, di, mem =>
    let al := mem (linear ds si)
    let mem := mem.store di.toNat [al]
    let ds := if si + 1 = 0 then ds + 0x1000 else ds
    if al = 0 then mem else strncpy n ds (si + 1) (di + 1) mem

/-- The name in `pxe_tftp_open`. The limit is not 122 but the word at `ds:122`. -/
def copyName (esi : ℕ) (mem : Memory) : Memory :=
  let ds := UInt16.ofNat (esi / 2^4)
  let mem := mem.store I.filename (le 4 0x746F6F62)
  let mem := mem.store (I.filename + 4) [0x2F]
  strncpy (rounds (read16 mem (linear ds 122))) ds (UInt16.ofNat (esi % 2^4))
    (UInt16.ofNat (I.filename + 5)) mem

/-- The parameters of `TFTP_GET_FSIZE`, but for the name. -/
def fsizeParams (mem : Memory) : Memory :=
  let mem := mem.store I.tftpOpen (le 2 0)
  let mem := mem.store (I.tftpOpen + 2) (le 4 (read32 mem (I.cachedInfo + 12)))
  let mem := mem.store (I.tftpOpen + 6) (le 4 (read32 mem (I.cachedInfo + 16)))
  mem.store I.port (le 4 0)

/-- The parameters of `TFTP_OPEN`: port 69 and packets of 512 bytes. -/
def openParams (mem : Memory) : Memory :=
  let mem := mem.store I.fileSize (le 4 (read32 mem I.port))
  let mem := mem.store I.port (le 2 (69 * 2^8))
  mem.store I.packetSize (le 2 512)

/-- `.open_fsize_error` and `.open_fopen_error`. -/
def openError (opcode : ℕ) (status : UInt16) (m : Machine σ) : Except Abort (UInt32 × Machine σ) :=
  if read16 m.mem I.tftpOpen = 0x3B then .ok (0xFFFFFFFF, m)
  else .error (.pxeError opcode (some (name I m.mem)) status)

/-- `file_open`; `eax` is not zero if there is no such file. -/
def fileOpen (esi : ℕ) (m : Machine σ) : Except Abort (UInt32 × Machine σ) :=
  let r := request I api 0x25 I.tftpOpen { m with mem := fsizeParams I (copyName I esi m.mem) }
  if r.1 ≠ 0 then openError I 0x25 r.1 r.2
  else
    let r := request I api 0x20 I.tftpOpen { r.2 with mem := openParams I r.2.mem }
    if r.1 ≠ 0 then openError I 0x20 r.1 r.2
    else .ok (0, r.2)

/-- The parameters of `TFTP_READ`. -/
def readParams (edi : ℕ) (mem : Memory) : Memory :=
  let mem := mem.store (I.tftpRead + 6) (le 2 (edi % 2^4))
  let mem := mem.store (I.tftpRead + 8) (le 2 (edi / 2^4))
  let mem := mem.store I.tftpRead (le 4 0)
  mem.store (I.tftpRead + 4) (le 2 0)

/-- `.read`, with `ecx` bytes to come. A round is repeated only if it was given less
than that, and at least a packet. -/
def readLoop (ecx edi : ℕ) (m : Machine σ) : Except Abort (Machine σ) :=
  let r := request I api 0x22 I.tftpRead { m with mem := readParams I edi m.mem }
  if r.1 ≠ 0 then .error (.pxeError 0x22 (some (name I r.2.mem)) r.1)
  else
    let edx := read16 r.2.mem (I.tftpRead + 4)
    if hshort : edx < 512 then .ok r.2
    else if hend : ecx ≤ edx then .ok r.2
    else readLoop (ecx - edx) (Word.add 32 edi edx) r.2
termination_by ecx
decreasing_by
  have hpos : 0 < edx := by omega
  exact Nat.sub_lt (hpos.trans (Nat.lt_of_not_le hend)) hpos

def fileRead (edi : ℕ) (m : Machine σ) : Except Abort (Machine σ) :=
  readLoop I api (read32 m.mem I.fileSize) edi m

def fileClose (m : Machine σ) : Except Abort (Machine σ) :=
  let r := request I api 0x21 I.tftpOpen { m with mem := m.mem.store I.tftpOpen (le 2 0) }
  if r.1 ≠ 0 then .error (.pxeError 0x21 (some (name I r.2.mem)) r.1) else .ok r.2

/-- The driver of `init.S`, with the registers at its start. -/
def storage (es bx ss sp : UInt16) : Stage1.Storage σ Abort where
  init := storageInit I api es bx ss sp
  fileOpen := fileOpen I api
  fileRead := fileRead I api
  fileClose := fileClose I api
  abort := .message

end Storage

section Copy

/-- The source goes on in the next segment. -/
theorem linear_next {ds si : UInt16} (h : linear ds si + 1 < 2^20) :
    linear (if si + 1 = 0 then ds + 0x1000 else ds) (si + 1) = linear ds si + 1 := by
  have hsi := si.toNat_lt
  simp only [linear] at h ⊢
  by_cases hwrap : si + 1 = 0
  · have hlast : si.toNat = 2^16 - 1 := by
      have := congrArg UInt16.toNat hwrap
      rw [UInt16.toNat_add] at this
      simp only [UInt16.toNat_one, UInt16.toNat_zero] at this
      omega
    rw [if_pos hwrap, hwrap, UInt16.toNat_add, show (0x1000 : UInt16).toNat = 0x1000 from rfl,
      UInt16.toNat_zero, Nat.mod_eq_of_lt (by omega)]
    omega
  · have hnext : (si + 1).toNat = si.toNat + 1 := by
      have : (si + 1).toNat ≠ 0 := fun h0 => hwrap (UInt16.toNat_inj.mp h0)
      rw [UInt16.toNat_add, UInt16.toNat_one] at this ⊢
      omega
    rw [if_neg hwrap, hnext]
    omega

/-- The string is copied with its end if the count allows it. -/
theorem strncpy_eq {s : CString} (hzero : (0 : UInt8) ∉ s) {n : ℕ} (hn : s.length < n)
    {ds si di : UInt16} {mem : Memory}
    (hsrc : ∀ i ≤ s.length, mem (linear ds si + i) = (s[i]?).getD 0)
    (hlow : linear ds si + s.length < 2^20) (hdi : di.toNat + s.length < 2^16)
    (hapart : linear ds si + s.length < di.toNat ∨ di.toNat + s.length < linear ds si) :
    strncpy n ds si di mem = mem.store di.toNat (s ++ [0]) := by
  -- each round has the rest of the string before it, at the next address
  induction s generalizing n ds si di mem with
  | nil =>
    obtain ⟨n, rfl⟩ : ∃ j, n = j + 1 := ⟨n - 1, by simp only [List.length_nil] at hn; omega⟩
    have hend : mem (linear ds si) = 0 := by simpa using hsrc 0 le_rfl
    simp [strncpy, hend]
  | cons c s ih =>
    obtain ⟨n, rfl⟩ : ∃ j, n = j + 1 := ⟨n - 1, by omega⟩
    rw [List.length_cons] at hn hlow hdi hapart
    have hc : c ≠ 0 := fun h => hzero (by rw [h]; exact List.mem_cons_self)
    have hfirst : mem (linear ds si) = c := by simpa using hsrc 0 (Nat.zero_le _)
    have hnext := @linear_next ds si (by omega)
    have hdi' : (di + 1).toNat = di.toNat + 1 := by
      rw [UInt16.toNat_add, UInt16.toNat_one]
      omega
    rw [strncpy, hfirst, if_neg hc, ih (fun h => hzero (List.mem_cons_of_mem c h)) (by omega),
      hdi', store_after mem (show [c].length = 1 from rfl)]
    · rfl
    · intro i hi
      rw [hnext, Bios.Cdrom.store_outside _ (by rw [List.length_singleton]; omega), Nat.add_assoc,
        Nat.add_comm 1 i, hsrc (i + 1) (by rw [List.length_cons]; omega), List.getElem?_cons_succ]
    · rw [hnext]
      omega
    · omega
    · rw [hnext]
      omega

/-- The name of a file on the server. -/
def bootName (s : CString) : CString := CString.ofString "boot/" ++ s

theorem length_bootName (s : CString) : (bootName s).length = s.length + 5 := by
  rw [bootName, List.length_append, Nat.add_comm]
  rfl

theorem zero_notMem_bootName {s : CString} (hs : (0 : UInt8) ∉ s) : (0 : UInt8) ∉ bootName s := by
  rw [bootName, List.mem_append, not_or]
  exact ⟨by decide, hs⟩

/-- A name in memory that `file_open` can take over: it is outside the field it is
copied to and fits there, and so does the word that limits its length. -/
structure Copied (I : Image) (esi : ℕ) (s : CString) (mem : Memory) : Prop where
  zero : (0 : UInt8) ∉ s
  chars : ∀ i ≤ s.length, mem (esi + i) = (s[i]?).getD 0
  fits : s.length + 5 < 128
  apart : esi + s.length < I.bss ∨ I.bss + 161 ≤ esi
  low : esi + s.length < 2^20
  limit : s.length < rounds (read16 mem (esi / 2^4 * 2^4 + 122))
  limit_apart : esi / 2^4 * 2^4 + 124 ≤ I.bss ∨ I.bss + 161 ≤ esi / 2^4 * 2^4 + 122

theorem copyName_eq {I : Image} {esi : ℕ} {s : CString} {mem : Memory} (h : Copied I esi s mem) :
    copyName I esi mem = mem.store I.filename (bootName s ++ [0]) := by
  obtain ⟨hzero, hchars, hfits, hapart, hlow, hlimit, hlimitApart⟩ := h
  have hbss := I.bss_le
  have hfile : I.filename = I.bss + 15 := rfl
  have hds : (UInt16.ofNat (esi / 2^4)).toNat = esi / 2^4 := by
    rw [UInt16.toNat_ofNat']
    omega
  have hsi : (UInt16.ofNat (esi % 2^4)).toNat = esi % 2^4 := by
    rw [UInt16.toNat_ofNat']
    omega
  have hdi : (UInt16.ofNat (I.filename + 5)).toNat = I.filename + 5 := by
    rw [UInt16.toNat_ofNat']
    omega
  have hsource : linear (UInt16.ofNat (esi / 2^4)) (UInt16.ofNat (esi % 2^4)) = esi := by
    rw [linear, hds, hsi]
    omega
  have hword : linear (UInt16.ofNat (esi / 2^4)) 122 = esi / 2^4 * 2^4 + 122 := by
    rw [linear, hds]
    rfl
  have hboot : (mem.store I.filename (le 4 0x746F6F62)).store (I.filename + 4) [0x2F] =
      mem.store I.filename (CString.ofString "boot/") := by
    rw [store_after mem (Bios.Cdrom.length_le 4 _)]
    rfl
  have hkeep : ∀ x, x < I.bss ∨ I.bss + 161 ≤ x →
      mem.store I.filename (CString.ofString "boot/") x = mem x := by
    intro x hx
    refine Bios.Cdrom.store_outside mem ?_
    rw [show (CString.ofString "boot/").length = 5 from rfl]
    omega
  have hlimit' : read16 (mem.store I.filename (CString.ofString "boot/"))
      (esi / 2^4 * 2^4 + 122) = read16 mem (esi / 2^4 * 2^4 + 122) :=
    read16_congr fun i hi => hkeep _ (by omega)
  rw [copyName, hboot, hword, hlimit', strncpy_eq hzero hlimit, hdi,
    store_after mem (show (CString.ofString "boot/").length = 5 from rfl), bootName,
    List.append_assoc]
  · intro i hi
    rw [hsource, hkeep _ (by omega), hchars i hi]
  · rw [hsource]
    exact hlow
  · omega
  · rw [hsource, hdi]
    omega

end Copy

section Params

variable (I : Image) (mem : Memory)

theorem readParams_eq (edi : ℕ) : readParams I edi mem = mem.store I.tftpRead
    (le 4 0 ++ (le 2 0 ++ (le 2 (edi % 2^4) ++ le 2 (edi / 2^4)))) := by
  have hlen : (le 4 0 ++ le 2 0).length = 6 := by
    simp only [List.length_append, Bios.Cdrom.length_le]
  rw [readParams, show I.tftpRead + 8 = I.tftpRead + 6 + 2 from rfl,
    store_after mem (Bios.Cdrom.length_le 2 _), store_after _ (Bios.Cdrom.length_le 4 0),
    store_append mem hlen, List.append_assoc]

theorem readParams_buffer {edi : ℕ} (h : edi < 2^20) :
    read16 (readParams I edi mem) (I.tftpRead + 8) * 2^4 +
      read16 (readParams I edi mem) (I.tftpRead + 6) = edi := by
  have hoff : read16 (readParams I edi mem) (I.tftpRead + 6) = edi % 2^4 := by
    rw [readParams_eq, ← List.append_assoc]
    exact read16_append mem (by simp only [List.length_append, Bios.Cdrom.length_le]) (by omega)
  have hseg : read16 (readParams I edi mem) (I.tftpRead + 8) = edi / 2^4 := by
    rw [readParams_eq, ← List.append_assoc, ← List.append_assoc, ← List.append_nil (le 2 (edi / 2^4))]
    exact read16_append mem (by simp only [List.length_append, Bios.Cdrom.length_le]) (by omega)
  rw [hoff, hseg]
  omega

theorem readParams_outside {edi x : ℕ} (h : x < I.tftpRead ∨ I.tftpRead + 10 ≤ x) :
    readParams I edi mem x = mem x := by
  rw [readParams_eq]
  refine Bios.Cdrom.store_outside mem ?_
  simp only [List.length_append, Bios.Cdrom.length_le]
  exact h

theorem fsizeParams_outside {x : ℕ}
    (h : x < I.tftpOpen ∨ I.filename ≤ x ∧ x < I.port ∨ I.port + 4 ≤ x) :
    fsizeParams I mem x = mem x := by
  have hfile : I.filename = I.tftpOpen + 10 := rfl
  have hport : I.port = I.tftpOpen + 138 := rfl
  rw [fsizeParams, Bios.Cdrom.store_outside _ ?_, Bios.Cdrom.store_outside _ ?_,
    Bios.Cdrom.store_outside _ ?_, Bios.Cdrom.store_outside _ ?_]
  all_goals
    rw [Bios.Cdrom.length_le]
    omega

theorem openParams_eq : openParams I mem =
    (mem.store I.fileSize (le 4 (read32 mem I.port))).store I.port
      (le 2 (69 * 2^8) ++ le 2 512) := by
  rw [openParams, show I.packetSize = I.port + 2 from rfl,
    store_after _ (Bios.Cdrom.length_le 2 _)]

theorem openParams_packetSize : read16 (openParams I mem) I.packetSize = 512 := by
  rw [openParams_eq, show I.packetSize = I.port + 2 from rfl, ← List.append_nil (le 2 512)]
  exact read16_append _ (Bios.Cdrom.length_le 2 _) (by decide)

theorem openParams_fileSize : read32 (openParams I mem) I.fileSize = read32 mem I.port := by
  have hport : read32 (openParams I mem) I.fileSize =
      read32 (mem.store I.fileSize (le 4 (read32 mem I.port) ++ [])) (I.fileSize + 0) := by
    rw [List.append_nil, openParams_eq]
    refine read32_congr fun i _ => Bios.Cdrom.store_outside _ (.inr ?_)
    simp only [List.length_append, Bios.Cdrom.length_le, Image.port, Image.fileSize, Image.tftpOpen]
    omega
  rw [hport]
  exact @read32_append mem _ 0 [] _ _ rfl (read32_lt mem I.port)

theorem openParams_outside {x : ℕ}
    (h : x < I.port ∨ I.port + 4 ≤ x ∧ x < I.fileSize ∨ I.fileSize + 4 ≤ x) :
    openParams I mem x = mem x := by
  have hports : I.port + 4 ≤ I.fileSize := by
    simp only [Image.port, Image.tftpOpen, Image.fileSize]
    omega
  rw [openParams_eq, Bios.Cdrom.store_outside _ ?_, Bios.Cdrom.store_outside _ ?_]
  · rw [Bios.Cdrom.length_le]
    omega
  · rw [List.length_append, Bios.Cdrom.length_le, Bios.Cdrom.length_le]
    omega

end Params

end Gandr.Pxe
