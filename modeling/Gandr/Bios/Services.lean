import Mathlib.Tactic
import Gandr.Lib.Program

/-! The interface to the firmware of `bal/bios_services.h`. -/

namespace Gandr.Bios

/-- `struct bios_registers`. -/
structure Registers where
  ds : UInt16 := 0
  es : UInt16 := 0
  fs : UInt16 := 0
  gs : UInt16 := 0
  edi : UInt32 := 0
  esi : UInt32 := 0
  ebp : UInt32 := 0
  esp : UInt32 := 0
  ebx : UInt32 := 0
  edx : UInt32 := 0
  ecx : UInt32 := 0
  eax : UInt32 := 0
  eflags : UInt32 := 0
  deriving DecidableEq

def carryFlag : UInt32 := 1

/-- `regs.eflags & carry_flag`. -/
def Registers.carry (regs : Registers) : Bool := regs.eflags &&& carryFlag != 0

/-- `rm_seg_from_ptr`. -/
def rmSegFromPtr (p : ℕ) : UInt16 := UInt16.ofNat (p / 2^4)

/-- `rm_offset_from_ptr`. -/
def rmOffsetFromPtr (p : ℕ) : UInt16 := UInt16.ofNat (p % 2^4)

end Gandr.Bios
