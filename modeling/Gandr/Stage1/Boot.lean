import Gandr.Bios.Bytes
import Gandr.Lib.Strings

/-! The first stage from `_start` to the jump into the boot abstraction layer:
`bal/platform/bios/stage1/init.S`. What the boot device is, its driver decides. -/

namespace Gandr.Stage1

open Bios.Cdrom (Memory le read16 read32)
open Bios.Bytes

/-- The firmware with its own state, and memory without the stack. -/
structure Machine (σ : Type) where
  firmware : σ
  mem : Memory

/-- The driver of the boot device: `storage_init`, `file_open`, which returns `eax`,
`file_read` and `file_close`, and how a boot is aborted with a text. -/
structure Storage (σ ε : Type) where
  init : Machine σ → Except ε (Machine σ)
  fileOpen : (esi : ℕ) → Machine σ → Except ε (UInt32 × Machine σ)
  fileRead : (edi : ℕ) → Machine σ → Except ε (Machine σ)
  fileClose : Machine σ → Except ε (Machine σ)
  abort : String → ε

/-- What the processor answers: the flags at the start, the flags that `popf` and
`popfl` leave of those they are given, and `eax` and `edx` of `cpuid`. -/
structure Processor where
  flags : UInt16
  popf : UInt16 → UInt16
  eflags : UInt32
  popfl : UInt32 → UInt32
  cpuid : UInt32 → UInt32 × UInt32

/-- Where the linker puts the variables of `init.S` and the table for the next stage. -/
structure Image where
  bal : ℕ
  balIs64bit : ℕ
  stage2Entry : ℕ
  apiTable : ℕ
  bal_le : bal + 10 ≤ 0x3000
  is64bit_lt : balIs64bit < 0x3000
  entry_le : stage2Entry + 6 ≤ 0x3000
  is64bit_apart : balIs64bit < bal ∨ bal + 10 ≤ balIs64bit
  entry_apart : balIs64bit < stage2Entry ∨ stage2Entry + 6 ≤ balIs64bit

namespace Processor

variable (cpu : Processor)

def hasCpuid : Bool := (cpu.popfl (cpu.eflags ^^^ 0x200000) ^^^ cpu.eflags) &&& 0x200000 ≠ 0

/-- The tests before `.no_long_mode`. -/
def longMode : Bool :=
  cpu.hasCpuid && 0x80000001 ≤ (cpu.cpuid 0x80000000).1 &&
    (cpu.cpuid 0x80000001).2 &&& 0x20000000 != 0

end Processor

/-- `BAL_LOAD_ADDRESS` -/
def balLoadAddress : ℕ := 0x10000

def noBalErrorMsg : String := "No Boot Abstraction Layer found on the boot device."

def not386ErrorMsg : String := "The CPU is not Intel 80386 compatible."

section Boot

variable {σ ε : Type} (I : Image) (S : Storage σ ε) (cpu : Processor)

/-- The tests of the flags. An 8086 is told that there is no file. -/
def checkProcessor : Except ε Unit :=
  let ax := cpu.flags
  if ax &&& 0x8000 ≠ 0 then .error (S.abort noBalErrorMsg)
  else
    let ax := ax ^^^ 0x3000
    if (cpu.popf ax ^^^ ax) &&& 0x3000 ≠ 0 then .error (S.abort not386ErrorMsg) else .ok ()

/-- The two characters at `bal + 7`. -/
def patchName (chars : ℕ) (m : Machine σ) : Machine σ :=
  { m with mem := m.mem.store (I.bal + 7) (le 2 chars) }

def setIs64bit (v : UInt8) (m : Machine σ) : Machine σ :=
  { m with mem := m.mem.store I.balIs64bit [v] }

/-- `.no_long_mode`. -/
def open32 (m : Machine σ) : Except ε (Machine σ) := do
  let (eax, m) ← S.fileOpen I.bal (patchName I 0x3233 (setIs64bit I 0 m))
  if eax ≠ 0 then .error (S.abort noBalErrorMsg) else .ok m

/-- From `cpuid` to `.read_bal`. -/
def openBal (m : Machine σ) : Except ε (Machine σ) :=
  if cpu.longMode then do
    let (eax, m) ← S.fileOpen I.bal (patchName I 0x3436 m)
    if eax ≠ 0 then open32 I S m else .ok (setIs64bit I 1 m)
  else open32 I S m

/-- The registers that the next stage starts with. -/
structure Handover where
  cs : UInt16
  eip : ℕ
  esp : ℕ
  edi : ℕ
  deriving DecidableEq

/-- `Lgo_stage2`: the segment and the entry point, through `stage2_entry`. -/
def goStage2 (m : Machine σ) : Handover × Machine σ :=
  let cx := if m.mem I.balIs64bit = 0 then 0x18 else 0x28
  let mem := m.mem.store (I.stage2Entry + 4) (le 2 cx)
  let mem := mem.store I.stage2Entry (le 4 (read32 mem (balLoadAddress + 4)))
  (⟨UInt16.ofNat (read16 mem (I.stage2Entry + 4)), read32 mem I.stage2Entry, 0x10000, I.apiTable⟩,
    { m with mem := mem })

/-- The way through `init.S`. -/
def boot (a20Enable : Machine σ → Except ε (Machine σ)) (m : Machine σ) :
    Except ε (Handover × Machine σ) := do
  checkProcessor S cpu
  let m ← S.init m
  let m ← a20Enable m
  let m ← openBal I S cpu m
  let m ← S.fileRead balLoadAddress m
  let m ← S.fileClose m
  .ok (goStage2 I m)

end Boot

/-- The file that is to be booted, and whether it is for long mode. -/
def selection (longMode : Bool) (files : CString → Option (List UInt8)) :
    Option (Bool × List UInt8) :=
  let file32 := (files (CString.ofString "gd_bal.32")).map (false, ·)
  if longMode then ((files (CString.ofString "gd_bal.64")).map (true, ·)).or file32 else file32

section Facts

variable {σ : Type} (I : Image)

@[simp] theorem mem_patchName (chars : ℕ) (m : Machine σ) :
    (patchName I chars m).mem = m.mem.store (I.bal + 7) (le 2 chars) := rfl

@[simp] theorem mem_setIs64bit (v : UInt8) (m : Machine σ) :
    (setIs64bit I v m).mem = m.mem.store I.balIs64bit [v] := rfl

/-- The next stage is entered where its fifth to eighth byte say. -/
theorem goStage2_fst (m : Machine σ) : (goStage2 I m).1 =
    ⟨if m.mem I.balIs64bit = 0 then 0x18 else 0x28, read32 m.mem (balLoadAddress + 4), 0x10000,
      I.apiTable⟩ := by
  obtain ⟨cx, hcx⟩ : ∃ cx : ℕ, cx = if m.mem I.balIs64bit = 0 then 0x18 else 0x28 := ⟨_, rfl⟩
  have hentry := I.entry_le
  have hsame : read32 (m.mem.store (I.stage2Entry + 4) (le 2 cx)) (balLoadAddress + 4) =
      read32 m.mem (balLoadAddress + 4) := by
    refine read32_congr fun i _ => Bios.Cdrom.store_outside _ (.inr ?_)
    rw [Bios.Cdrom.length_le, balLoadAddress]
    omega
  obtain ⟨v, hv⟩ : ∃ v, v = read32 m.mem (balLoadAddress + 4) := ⟨_, rfl⟩
  have hstore : (m.mem.store (I.stage2Entry + 4) (le 2 cx)).store I.stage2Entry (le 4 v) =
      m.mem.store I.stage2Entry (le 4 v ++ le 2 cx) :=
    store_append m.mem (Bios.Cdrom.length_le 4 v)
  have hcs : read16 ((m.mem.store (I.stage2Entry + 4) (le 2 cx)).store I.stage2Entry (le 4 v))
      (I.stage2Entry + 4) = cx := by
    rw [hstore, ← List.append_nil (le 2 cx)]
    refine read16_append m.mem (Bios.Cdrom.length_le 4 v) ?_
    rw [hcx]
    split_ifs <;> decide
  have heip : read32 ((m.mem.store (I.stage2Entry + 4) (le 2 cx)).store I.stage2Entry (le 4 v))
      I.stage2Entry = v := by
    rw [hstore]
    refine @read32_append m.mem _ 0 [] _ _ rfl ?_
    rw [hv]
    exact read32_lt m.mem _
  simp only [goStage2, ← hcx, hsame, ← hv, hcs, heip]
  congr 1
  rw [hcx]
  split_ifs <;> rfl

theorem mem_goStage2 (m : Machine σ) {x : ℕ} (hx : I.stage2Entry + 6 ≤ x) :
    (goStage2 I m).2.mem x = m.mem x := by
  simp only [goStage2]
  rw [Bios.Cdrom.store_outside _ ?_, Bios.Cdrom.store_outside _ ?_]
  all_goals
    rw [Bios.Cdrom.length_le]
    omega

end Facts

end Gandr.Stage1
