import Gandr.Bios.Bytes

/-! The way from protected mode into the firmware and back: `bios_int_call` and
`bios_far_call` of `bal/platform/bios/bios_services.c`, and `api_int_call` and
`api_far_call` of `stage1/api.S` with the mode switches of `modeswitch.S`. The
registers travel through the real mode stack, whose segment is 0. -/

namespace Gandr.Bios.Calls

open Cdrom (Memory le read16 read32)
open Bytes

/-- The processor in 16-bit code. The stack pointer is `sp`, so the field `esp` of
the registers is not used. -/
structure Cpu where
  sp : ℕ
  regs : Registers
  mem : Memory

namespace Cpu

def push (c : Cpu) (vs : List UInt8) : Cpu :=
  { c with sp := c.sp - vs.length, mem := c.mem.store (c.sp - vs.length) vs }

def pushw (c : Cpu) (v : UInt16) : Cpu := c.push (le 2 v.toNat)

def pushl (c : Cpu) (v : UInt32) : Cpu := c.push (le 4 v.toNat)

def popw (c : Cpu) (set : UInt16 → Registers → Registers) : Cpu :=
  { c with sp := c.sp + 2, regs := set (UInt16.ofNat (read16 c.mem c.sp)) c.regs }

def popl (c : Cpu) (set : UInt32 → Registers → Registers) : Cpu :=
  { c with sp := c.sp + 4, regs := set (UInt32.ofNat (read32 c.mem c.sp)) c.regs }

def pushf (c : Cpu) : Cpu := c.pushw (UInt16.ofNat c.regs.eflags.toNat)

/-- `popf` leaves the upper half of the flags. -/
def popf (c : Cpu) : Cpu :=
  c.popw fun v r => { r with eflags := UInt32.ofNat (r.eflags.toNat / 2^16 * 2^16 + v.toNat) }

/-- All segment registers but the stack segment, which has base 0 in both modes. -/
def setSegments (c : Cpu) (ds es fs gs : UInt16) : Cpu :=
  { c with regs := { c.regs with ds := ds, es := es, fs := fs, gs := gs } }

def pushal (c : Cpu) : Cpu :=
  let sp := UInt32.ofNat c.sp
  let c := (((c.pushl c.regs.eax).pushl c.regs.ecx).pushl c.regs.edx).pushl c.regs.ebx
  (((c.pushl sp).pushl c.regs.ebp).pushl c.regs.esi).pushl c.regs.edi

/-- `popal` passes over the stack pointer. -/
def popal (c : Cpu) : Cpu :=
  let c := c.popl fun v r => { r with edi := v }
  let c := c.popl fun v r => { r with esi := v }
  let c := c.popl fun v r => { r with ebp := v }
  let c := c.popl fun _ r => r
  let c := c.popl fun v r => { r with ebx := v }
  let c := c.popl fun v r => { r with edx := v }
  let c := c.popl fun v r => { r with ecx := v }
  c.popl fun v r => { r with eax := v }

/-- The registers as `api.S` takes them from the stack. -/
def popRegisters (c : Cpu) : Cpu :=
  let c := c.popw fun v r => { r with ds := v }
  let c := c.popw fun v r => { r with es := v }
  let c := c.popw fun v r => { r with fs := v }
  let c := c.popw fun v r => { r with gs := v }
  c.popal.popl fun v r => { r with eflags := v }

def pushRegisters (c : Cpu) : Cpu :=
  let c := (c.pushl c.regs.eflags).pushal
  (((c.pushw c.regs.gs).pushw c.regs.fs).pushw c.regs.es).pushw c.regs.ds

end Cpu

def rmDs : UInt16 := 0x00

def pmDs16 : UInt16 := 0x10

def pmDs32 : UInt16 := 0x20

/-- What `pm16_to_rm` and `rm_to_pm16` do around the change of the mode; `ret` is
the address they return to. -/
def switchMode (ret : UInt16) (c : Cpu) (ds es fs gs : UInt16) : Cpu :=
  let c := ((c.pushw ret).pushf.pushl c.regs.eax).setSegments ds es fs gs
  (c.popl fun v r => { r with eax := v }).popf.popw fun _ r => r

def pm16ToRm (ret : UInt16) (c : Cpu) : Cpu := switchMode ret c rmDs rmDs rmDs rmDs

def rmToPm16 (ret : UInt16) (c : Cpu) : Cpu := switchMode ret c pmDs16 pmDs16 pmDs32 pmDs16

/-- What the linker decides: the return addresses of the calls in `api.S`, the place
of the number in the instruction `int` and that of `far_call_ptr`. The first stage
is linked between `0x600` and `0x3000`. -/
structure Image where
  enter : UInt16
  leave : UInt16
  number : UInt16
  farCallPtr : UInt16
  number_lt : number.toNat < 0x3000

def stackTop : ℕ := 0x8000

/-- An interrupt, or a far call, as a whole: from the registers it is entered with
to those it returns with. -/
abbrev Service := Cpu → Cpu

/-- `api_int_call` until it loads the stack pointer of the caller. The number of the
interrupt is in `al`, and is written into the instruction. -/
def apiIntCall (I : Image) (int : ℕ → Service) (c : Cpu) : Cpu :=
  let c := pm16ToRm I.enter c
  let c := { c with mem := c.mem.store I.number.toNat [UInt8.ofNat c.regs.eax.toNat] }
  let c := c.popRegisters
  rmToPm16 I.leave (int (c.mem I.number.toNat).toNat c).pushRegisters

/-- `api_far_call` until it loads the stack pointer of the caller. The address is
kept at `far_call_ptr` in the data segment of the caller's registers. -/
def apiFarCall (I : Image) (far : ℕ → Service) (c : Cpu) : Cpu :=
  let c := (pm16ToRm I.enter c).popRegisters
  let ptr := c.regs.ds.toNat * 2^4 + I.farCallPtr.toNat
  let address := read32 c.mem c.sp
  let c := { c with sp := c.sp + 4, mem := c.mem.store ptr (le 4 address) }
  rmToPm16 I.leave (far (read32 c.mem ptr) c).pushRegisters

/-- The fields of `struct bios_registers` in memory. -/
def fields (r : Registers) : List (List UInt8) :=
  [le 2 r.ds.toNat, le 2 r.es.toNat, le 2 r.fs.toNat, le 2 r.gs.toNat, le 4 r.edi.toNat,
    le 4 r.esi.toNat, le 4 r.ebp.toNat, le 4 r.esp.toNat, le 4 r.ebx.toNat, le 4 r.edx.toNat,
    le 4 r.ecx.toNat, le 4 r.eax.toNat, le 4 r.eflags.toNat]

def readRegisters (mem : Memory) (a : ℕ) : Registers where
  ds := UInt16.ofNat (read16 mem a)
  es := UInt16.ofNat (read16 mem (a + 2))
  fs := UInt16.ofNat (read16 mem (a + 4))
  gs := UInt16.ofNat (read16 mem (a + 6))
  edi := UInt32.ofNat (read32 mem (a + 8))
  esi := UInt32.ofNat (read32 mem (a + 12))
  ebp := UInt32.ofNat (read32 mem (a + 16))
  esp := UInt32.ofNat (read32 mem (a + 20))
  ebx := UInt32.ofNat (read32 mem (a + 24))
  edx := UInt32.ofNat (read32 mem (a + 28))
  ecx := UInt32.ofNat (read32 mem (a + 32))
  eax := UInt32.ofNat (read32 mem (a + 36))
  eflags := UInt32.ofNat (read32 mem (a + 40))

def setEsp (r : Registers) (esp : UInt32) : Registers := { r with esp := esp }

/-- What a call returns to C: the registers, the stack pointer that is loaded from
the real mode stack, and the memory. -/
structure Return where
  regs : Registers
  esp : ℕ
  mem : Memory

def withAl (regs : Registers) (al : UInt8) : Registers :=
  { regs with eax := UInt32.ofNat (regs.eax.toNat / 2^8 * 2^8 + al.toNat) }

/-- `bios_int_call`. The other registers hold whatever the compiler left there, and
`esp` is the stack pointer to come back to. -/
def biosIntCall (I : Image) (int : ℕ → Service) (num : UInt8) (esp : UInt32) (other : Registers)
    (regs : Registers) (mem : Memory) : Return :=
  let mem := mem.store (stackTop - 4) (le 4 0)
  let sp := stackTop - 4 - 44
  let mem := (mem.store sp (fields regs).flatten).store (stackTop - 4) (le 4 esp.toNat)
  let c := apiIntCall I int ⟨sp, withAl other num, mem⟩
  ⟨readRegisters c.mem sp, read32 c.mem (stackTop - 4), c.mem⟩

/-- `bios_far_call`. -/
def biosFarCall (I : Image) (far : ℕ → Service) (address : UInt32) (stackData : List UInt8)
    (esp : UInt32) (other : Registers) (regs : Registers) (mem : Memory) : Return :=
  let mem := mem.store (stackTop - 4) (le 4 0)
  let sp := stackTop - 4 - stackData.length
  let mem := mem.store sp stackData
  let sp := sp - 4
  let mem := mem.store sp (le 4 address.toNat)
  let sp := sp - 44
  let mem := (mem.store sp (fields regs).flatten).store (stackTop - 4) (le 4 esp.toNat)
  let c := apiFarCall I far ⟨sp, other, mem⟩
  ⟨readRegisters c.mem sp, read32 c.mem (stackTop - 4), c.mem⟩

section Memory

variable (mem : Memory) {a : ℕ}

theorem map_length_fields (r : Registers) :
    (fields r).map List.length = [2, 2, 2, 2, 4, 4, 4, 4, 4, 4, 4, 4, 4] := by
  simp [fields, Cdrom.length_le]

theorem length_fields (r : Registers) : (fields r).flatten.length = 44 := by
  rw [List.length_flatten, map_length_fields]
  rfl

/-- The registers are read back as they were stored. -/
theorem readRegisters_store (r : Registers) (ys : List UInt8) :
    readRegisters (mem.store a ((fields r).flatten ++ ys)) a = r := by
  have h16 : ∀ (i n : ℕ) (v : UInt16), (fields r)[i]? = some (le 2 v.toNat) →
      ([2, 2, 2, 2, 4, 4, 4, 4, 4, 4, 4, 4, 4].take i).sum = n →
      UInt16.ofNat (read16 (mem.store a ((fields r).flatten ++ ys)) (a + n)) = v := by
    intro i n v h hn
    rw [read16_flatten mem ys h v.toNat_lt (by rw [map_length_fields, hn]), UInt16.ofNat_toNat]
  have h32 : ∀ (i n : ℕ) (v : UInt32), (fields r)[i]? = some (le 4 v.toNat) →
      ([2, 2, 2, 2, 4, 4, 4, 4, 4, 4, 4, 4, 4].take i).sum = n →
      UInt32.ofNat (read32 (mem.store a ((fields r).flatten ++ ys)) (a + n)) = v := by
    intro i n v h hn
    rw [read32_flatten mem ys h v.toNat_lt (by rw [map_length_fields, hn]), UInt32.ofNat_toNat]
  have hds := h16 0 0 r.ds rfl rfl
  rw [Nat.add_zero] at hds
  rw [readRegisters, hds, h16 1 2 r.es rfl rfl, h16 2 4 r.fs rfl rfl, h16 3 6 r.gs rfl rfl,
    h32 4 8 r.edi rfl rfl, h32 5 12 r.esi rfl rfl, h32 6 16 r.ebp rfl rfl, h32 7 20 r.esp rfl rfl,
    h32 8 24 r.ebx rfl rfl, h32 9 28 r.edx rfl rfl, h32 10 32 r.ecx rfl rfl,
    h32 11 36 r.eax rfl rfl, h32 12 40 r.eflags rfl rfl]

variable {mem}

theorem readRegisters_congr {mem' : Memory} (h : ∀ k < 44, mem' (a + k) = mem (a + k)) :
    readRegisters mem' a = readRegisters mem a := by
  have h16 : ∀ n, n + 2 ≤ 44 → read16 mem' (a + n) = read16 mem (a + n) := by
    intro n hn
    refine read16_congr fun k hk => ?_
    rw [Nat.add_assoc]
    exact h (n + k) (by omega)
  have h32 : ∀ n, n + 4 ≤ 44 → read32 mem' (a + n) = read32 mem (a + n) := by
    intro n hn
    refine read32_congr fun k hk => ?_
    rw [Nat.add_assoc]
    exact h (n + k) (by omega)
  have h₀ := h16 0 (by omega)
  rw [Nat.add_zero] at h₀
  simp only [readRegisters, h₀]
  simp only [h16, h32, Nat.reduceAdd, Nat.reduceLeDiff]

end Memory

section Stack

variable {c : Cpu}

theorem push_push {xs ys : List UInt8} (h : xs.length + ys.length ≤ c.sp) :
    (c.push ys).push xs = c.push (xs ++ ys) := by
  have hsp : c.sp - ys.length = c.sp - (xs ++ ys).length + xs.length := by
    rw [List.length_append]
    omega
  simp only [Cpu.push, Cpu.mk.injEq, true_and]
  refine ⟨?_, ?_⟩
  · rw [List.length_append]
    omega
  · rw [hsp, Nat.add_sub_cancel, store_append c.mem rfl]

theorem pushRegisters_eq (h : 44 ≤ c.sp) :
    c.pushRegisters = c.push (fields (setEsp c.regs (UInt32.ofNat (c.sp - 4)))).flatten := by
  have hregs : ∀ (c : Cpu) (vs : List UInt8), (c.push vs).regs = c.regs := fun _ _ => rfl
  have hsp : (c.push (le 4 c.regs.eflags.toNat)).sp = c.sp - 4 := by
    simp only [Cpu.push, Cdrom.length_le]
  simp only [Cpu.pushRegisters, Cpu.pushal, Cpu.pushl, Cpu.pushw, hregs, hsp]
  simp (disch := simp only [List.length_append, Cdrom.length_le]; omega) only [push_push]
  simp [fields, setEsp]

theorem popRegisters_eq : c.popRegisters =
    { c with sp := c.sp + 44, regs := setEsp (readRegisters c.mem c.sp) c.regs.esp } := by
  simp [Cpu.popRegisters, Cpu.popal, Cpu.popw, Cpu.popl, readRegisters, setEsp]

/-- A change of the mode keeps everything but the segment registers and the eight
bytes below the stack. -/
theorem switchMode_eq (ret : UInt16) (ds es fs gs : UInt16) (h : 8 ≤ c.sp) :
    switchMode ret c ds es fs gs =
      { c with
        regs := { c.regs with ds := ds, es := es, fs := fs, gs := gs }
        mem := c.mem.store (c.sp - 8) (le 4 c.regs.eax.toNat ++
          (le 2 (UInt16.ofNat c.regs.eflags.toNat).toNat ++ le 2 ret.toNat)) } := by
  obtain ⟨flags, hflags⟩ : ∃ flags, flags = UInt16.ofNat c.regs.eflags.toNat := ⟨_, rfl⟩
  rw [← hflags]
  have hpush : (c.pushw ret).pushf.pushl c.regs.eax =
      c.push (le 4 c.regs.eax.toNat ++ (le 2 flags.toNat ++ le 2 ret.toNat)) := by
    rw [hflags]
    change ((c.push (le 2 ret.toNat)).push (le 2 (UInt16.ofNat c.regs.eflags.toNat).toNat)).push
      (le 4 c.regs.eax.toNat) = _
    simp (disch := simp only [List.length_append, Cdrom.length_le]; omega) only [push_push]
  have hsp : c.sp - (le 4 c.regs.eax.toNat ++ (le 2 flags.toNat ++ le 2 ret.toNat)).length =
      c.sp - 8 := by
    simp only [List.length_append, Cdrom.length_le]
  have heax : read32 (c.mem.store (c.sp - 8) (le 4 c.regs.eax.toNat ++
      (le 2 flags.toNat ++ le 2 ret.toNat))) (c.sp - 8) = c.regs.eax.toNat :=
    @read32_append c.mem _ 0 [] _ _ rfl c.regs.eax.toNat_lt
  have hpopf : read16 (c.mem.store (c.sp - 8) (le 4 c.regs.eax.toNat ++
      (le 2 flags.toNat ++ le 2 ret.toNat))) (c.sp - 8 + 4) = flags.toNat :=
    read16_append c.mem (Cdrom.length_le 4 _) flags.toNat_lt
  have hrestore : UInt32.ofNat (c.regs.eflags.toNat / 2^16 * 2^16 + flags.toNat) =
      c.regs.eflags := by
    rw [hflags, UInt16.toNat_ofNat', show c.regs.eflags.toNat / 2^16 * 2^16 +
      c.regs.eflags.toNat % 2^16 = c.regs.eflags.toNat by omega, UInt32.ofNat_toNat]
  rw [switchMode, hpush]
  simp only [Cpu.push, Cpu.setSegments, Cpu.popl, Cpu.popf, Cpu.popw, hsp, heax, hpopf,
    UInt32.ofNat_toNat, UInt16.ofNat_toNat, hrestore]
  rw [show c.sp - 8 + 4 + 2 + 2 = c.sp by omega]

end Stack

/-- A service comes back with the stack pointer it was entered with, and leaves the
place where the stack pointer of the caller is. -/
def Returns (service : Service) (c : Cpu) : Prop :=
  (service c).sp = c.sp ∧ ∀ a, stackTop - 4 ≤ a → a < stackTop → (service c).mem a = c.mem a

section Ways

variable {I : Image} {service : Service} {c : Cpu}

/-- What a change of the mode leaves below the stack. -/
def trail (ret : UInt16) (r : Registers) : List UInt8 :=
  le 4 r.eax.toNat ++ (le 2 (UInt16.ofNat r.eflags.toNat).toNat ++ le 2 ret.toNat)

theorem length_trail (ret : UInt16) (r : Registers) : (trail ret r).length = 8 := by
  simp [trail, Cdrom.length_le]

/-- The way in: the registers come from the top of the stack. -/
theorem enter_eq (ret : UInt16) {regs : Registers} {mem : Memory} {rest : List UInt8} (h : 8 ≤ c.sp)
    (hmem : c.mem = mem.store c.sp ((fields regs).flatten ++ rest)) :
    (pm16ToRm ret c).popRegisters = ⟨c.sp + 44, setEsp regs c.regs.esp,
      mem.store (c.sp - 8) (trail ret c.regs ++ ((fields regs).flatten ++ rest))⟩ := by
  have hstore : c.mem.store (c.sp - 8) (trail ret c.regs) =
      mem.store (c.sp - 8) (trail ret c.regs ++ ((fields regs).flatten ++ rest)) := by
    rw [← store_append mem (length_trail ret c.regs), show c.sp - 8 + 8 = c.sp by omega, hmem]
  have hread : readRegisters (c.mem.store (c.sp - 8) (trail ret c.regs)) c.sp = regs := by
    rw [← readRegisters_store mem (a := c.sp) regs rest, ← hmem]
    refine readRegisters_congr fun k _ => Cdrom.store_outside _ (.inr ?_)
    rw [length_trail]
    omega
  rw [popRegisters_eq, pm16ToRm, switchMode_eq _ _ _ _ _ h]
  change (⟨c.sp + 44, setEsp (readRegisters (c.mem.store (c.sp - 8) (trail ret c.regs)) c.sp)
    c.regs.esp, c.mem.store (c.sp - 8) (trail ret c.regs)⟩ : Cpu) = _
  rw [hread, hstore]

/-- A write below the stack does not reach the registers on it. -/
theorem popRegisters_store {a : ℕ} {vs : List UInt8} (h : a + vs.length ≤ c.sp) :
    ({ c with mem := c.mem.store a vs } : Cpu).popRegisters =
      { c.popRegisters with mem := c.mem.store a vs } := by
  have hread : readRegisters (c.mem.store a vs) c.sp = readRegisters c.mem c.sp :=
    readRegisters_congr fun k _ => Cdrom.store_outside _ (.inr (by omega))
  rw [popRegisters_eq, popRegisters_eq]
  simp only [hread]

/-- The way back: the registers of the service are on the stack, below what was
there when it was entered. -/
theorem leave_mem (ret : UInt16) (h : 52 ≤ c.sp) :
    (rmToPm16 ret c.pushRegisters).mem = c.mem.store (c.sp - 52)
      (trail ret c.regs ++ (fields (setEsp c.regs (UInt32.ofNat (c.sp - 4)))).flatten) := by
  rw [pushRegisters_eq (by omega)]
  have hsp : (c.push (fields (setEsp c.regs (UInt32.ofNat (c.sp - 4)))).flatten).sp =
      c.sp - 52 + 8 := by
    rw [Cpu.push, length_fields]
    dsimp only
    omega
  rw [rmToPm16, switchMode_eq _ _ _ _ _ (by omega), hsp, Nat.add_sub_cancel]
  change (c.mem.store (c.sp - _) _).store (c.sp - 52) (trail ret c.regs) = _
  rw [length_fields, show c.sp - 44 = c.sp - 52 + 8 by omega,
    store_append c.mem (length_trail ret c.regs)]

theorem leave_registers (ret : UInt16) (h : 52 ≤ c.sp) :
    readRegisters (rmToPm16 ret c.pushRegisters).mem (c.sp - 44) =
      setEsp c.regs (UInt32.ofNat (c.sp - 4)) := by
  rw [leave_mem ret h, ← store_append c.mem (length_trail ret c.regs),
    show c.sp - 52 + 8 = c.sp - 44 by omega]
  have hread := readRegisters_store c.mem (a := c.sp - 44) (setEsp c.regs (UInt32.ofNat (c.sp - 4))) []
  rw [List.append_nil] at hread
  refine (readRegisters_congr fun k _ => Cdrom.store_outside _ (.inr ?_)).trans hread
  rw [length_trail]
  omega

/-- The stack pointer of the caller survives the way back. -/
theorem leave_esp (ret : UInt16) (h₁ : 52 ≤ c.sp) (h₂ : c.sp ≤ stackTop - 4) :
    read32 (rmToPm16 ret c.pushRegisters).mem (stackTop - 4) = read32 c.mem (stackTop - 4) := by
  rw [leave_mem ret h₁]
  refine read32_congr fun k _ => Cdrom.store_outside _ (.inr ?_)
  rw [List.length_append, length_trail, length_fields]
  omega

theorem leave_outside (ret : UInt16) {a : ℕ} (h : 52 ≤ c.sp) (ha : a < c.sp - 52 ∨ c.sp ≤ a) :
    (rmToPm16 ret c.pushRegisters).mem a = c.mem a := by
  rw [leave_mem ret h]
  refine Cdrom.store_outside _ ?_
  rw [List.length_append, length_trail, length_fields]
  omega

end Ways

section Entry

variable {I : Image} {c : Cpu} {regs : Registers} {mem : Memory} {rest : List UInt8}

theorem apiIntCall_eq {int : ℕ → Service} (hsp : 0x3000 ≤ c.sp)
    (hmem : c.mem = mem.store c.sp ((fields regs).flatten ++ rest)) :
    apiIntCall I int c = rmToPm16 I.leave (int (UInt8.ofNat c.regs.eax.toNat).toNat
      ⟨c.sp + 44, setEsp regs c.regs.esp,
        (mem.store (c.sp - 8) (trail I.enter c.regs ++ ((fields regs).flatten ++ rest))).store
          I.number.toNat [UInt8.ofNat c.regs.eax.toNat]⟩).pushRegisters := by
  have hnumber := I.number_lt
  have hswitch : (pm16ToRm I.enter c).sp = c.sp ∧ (pm16ToRm I.enter c).regs.eax = c.regs.eax ∧
      (pm16ToRm I.enter c).popRegisters.mem = (pm16ToRm I.enter c).mem := by
    rw [popRegisters_eq, pm16ToRm, switchMode_eq _ _ _ _ _ (by omega)]
    exact ⟨rfl, rfl, rfl⟩
  obtain ⟨hsp', heax, hpop⟩ := hswitch
  have hnum : ∀ (M : Memory) (v : UInt8), (M.store I.number.toNat [v]) I.number.toNat = v := by
    intro M v
    have := Cdrom.store_apply M I.number.toNat [v] 0
    rwa [Nat.add_zero] at this
  rw [enter_eq I.enter (by omega) hmem] at hpop
  rw [apiIntCall, popRegisters_store (by rw [hsp', List.length_singleton]; omega),
    enter_eq I.enter (by omega) hmem, heax, ← hpop]
  dsimp only
  rw [hnum]

/-- The address of the routine is taken off the stack. -/
theorem apiFarCall_eq {far : ℕ → Service} {address : UInt32} (hsp : 8 ≤ c.sp)
    (hmem : c.mem = mem.store c.sp ((fields regs).flatten ++ (le 4 address.toNat ++ rest))) :
    apiFarCall I far c = rmToPm16 I.leave (far address.toNat
      ⟨c.sp + 48, setEsp regs c.regs.esp,
        (mem.store (c.sp - 8) (trail I.enter c.regs ++
          ((fields regs).flatten ++ (le 4 address.toNat ++ rest)))).store
          (regs.ds.toNat * 2^4 + I.farCallPtr.toNat) (le 4 address.toNat)⟩).pushRegisters := by
  obtain ⟨M, hM⟩ : ∃ M, M = mem.store (c.sp - 8) (trail I.enter c.regs ++
    ((fields regs).flatten ++ (le 4 address.toNat ++ rest))) := ⟨_, rfl⟩
  have haddress : read32 M (c.sp + 44) = address.toNat := by
    rw [hM, ← List.append_assoc, show c.sp + 44 = c.sp - 8 + 52 by omega]
    refine read32_append mem ?_ address.toNat_lt
    rw [List.length_append, length_trail, length_fields]
  have hback : ∀ ptr, read32 (M.store ptr (le 4 address.toNat)) ptr = address.toNat := by
    intro ptr
    rw [← List.append_nil (le 4 address.toNat)]
    exact @read32_append M ptr 0 [] [] _ rfl address.toNat_lt
  have hds : (setEsp regs c.regs.esp).ds = regs.ds := rfl
  rw [apiFarCall, enter_eq I.enter hsp hmem, ← hM]
  dsimp only
  rw [haddress, hback, hds]

end Entry

section Results

variable (I : Image) (num : UInt8) (address esp : UInt32) (other regs : Registers) (mem : Memory)

/-- The real mode stack of `bios_int_call`. -/
theorem intStack_eq : ((mem.store (stackTop - 4) (le 4 0)).store (stackTop - 4 - 44)
    (fields regs).flatten).store (stackTop - 4) (le 4 esp.toNat) =
    mem.store 0x7FD0 ((fields regs).flatten ++ le 4 esp.toNat) := by
  rw [show stackTop - 4 - 44 = 0x7FD0 from rfl, show stackTop - 4 = 0x7FD0 + 44 from rfl,
    store_append mem (length_fields regs), store_end mem (length_fields regs)]
  rw [Cdrom.length_le, Cdrom.length_le]

/-- The memory an interrupt is entered with. -/
def intMemory : Memory :=
  (mem.store 0x7FC8 (trail I.enter (withAl other num) ++
    ((fields regs).flatten ++ le 4 esp.toNat))).store I.number.toNat [num]

theorem intMemory_outside {a : ℕ} (ha : a < 0x7FC8 ∨ stackTop ≤ a) :
    intMemory I num esp other regs mem a = if a = I.number.toNat then num else mem a := by
  rw [intMemory]
  by_cases hn : a = I.number.toNat
  · have := Cdrom.store_apply (mem.store 0x7FC8 (trail I.enter (withAl other num) ++
      ((fields regs).flatten ++ le 4 esp.toNat))) I.number.toNat [num] 0
    rw [Nat.add_zero] at this
    rw [if_pos hn, hn, this]
    rfl
  · rw [if_neg hn, Cdrom.store_outside, Cdrom.store_outside]
    · rw [List.length_append, List.length_append, length_trail, length_fields, Cdrom.length_le]
      exact ha
    · rw [List.length_singleton]
      omega

theorem intMemory_esp : read32 (intMemory I num esp other regs mem) (stackTop - 4) = esp.toNat := by
  have hnumber := I.number_lt
  have hsame : read32 (intMemory I num esp other regs mem) (0x7FC8 + 52) =
      read32 (mem.store 0x7FC8 (trail I.enter (withAl other num) ++
        ((fields regs).flatten ++ le 4 esp.toNat))) (0x7FC8 + 52) := by
    refine read32_congr fun k _ => Cdrom.store_outside _ (.inr ?_)
    rw [List.length_singleton]
    omega
  rw [show stackTop - 4 = 0x7FC8 + 52 from rfl, hsame, ← List.append_assoc,
    ← List.append_nil (le 4 esp.toNat)]
  refine read32_append mem ?_ esp.toNat_lt
  rw [List.length_append, length_trail, length_fields]

theorem biosIntCall_eq (int : ℕ → Service) {out : Cpu}
    (hout : out = int num.toNat ⟨0x7FFC, setEsp regs other.esp,
      intMemory I num esp other regs mem⟩) :
    biosIntCall I int num esp other regs mem =
      ⟨readRegisters (rmToPm16 I.leave out.pushRegisters).mem 0x7FD0,
        read32 (rmToPm16 I.leave out.pushRegisters).mem (stackTop - 4),
        (rmToPm16 I.leave out.pushRegisters).mem⟩ := by
  have hal : UInt8.ofNat (withAl other num).eax.toNat = num := by
    have := num.toNat_lt
    rw [← UInt8.toNat_inj]
    simp only [withAl, UInt32.toNat_ofNat', UInt8.toNat_ofNat']
    omega
  have hapi : apiIntCall I int ⟨0x7FD0, withAl other num,
      mem.store 0x7FD0 ((fields regs).flatten ++ le 4 esp.toNat)⟩ =
      rmToPm16 I.leave out.pushRegisters := by
    rw [apiIntCall_eq (show 0x3000 ≤ 0x7FD0 by decide) rfl]
    dsimp only
    rw [hal, hout]
    rfl
  rw [biosIntCall, intStack_eq, show stackTop - 4 - 44 = 0x7FD0 from rfl, hapi]

/-- A service that fails with `0x86` in `eax`, as a BIOS does where it has no such
service. -/
def failing (_ : ℕ) : Service := fun c =>
  { c with regs := { c.regs with eax := 0x86, eflags := carryFlag } }

/-- The registers of `bios_far_call` are read four bytes below the place where they
are, since the address of the call was taken off the stack. -/
def displaced (leave : UInt16) (r : Registers) : Registers where
  ds := UInt16.ofNat r.eflags.toNat
  es := leave
  fs := r.ds
  gs := r.es
  edi := UInt32.ofNat (r.fs.toNat + 2^16 * r.gs.toNat)
  esi := r.edi
  ebp := r.esi
  esp := r.ebp
  ebx := r.esp
  edx := r.ebx
  ecx := r.edx
  eax := r.ecx
  eflags := r.eax

theorem le_two_append {x y : ℕ} (hx : x < 2^16) : le 2 x ++ le 2 y = le 4 (x + 2^16 * y) := by
  have hbyte : ∀ a b : ℕ, a % 256 = b % 256 → UInt8.ofNat a = UInt8.ofNat b := by
    intro a b h
    rw [← UInt8.toNat_inj, UInt8.toNat_ofNat', UInt8.toNat_ofNat']
    exact h
  simp only [le, List.range_succ_eq_map, List.range_zero, List.map_cons, List.map_nil,
    List.cons_append, List.nil_append, List.cons.injEq, and_true]
  refine ⟨hbyte _ _ ?_, hbyte _ _ ?_, hbyte _ _ ?_, hbyte _ _ ?_⟩ <;>
    simp only [Nat.succ_eq_add_one, Nat.reduceAdd, Nat.reducePow] <;> omega

theorem fields_displaced (leave : UInt16) (r : Registers) :
    le 2 (UInt16.ofNat r.eflags.toNat).toNat ++ (le 2 leave.toNat ++ (fields r).flatten) =
      (fields (displaced leave r)).flatten ++ le 4 r.eflags.toNat := by
  have hsegs : (UInt32.ofNat (r.fs.toNat + 2^16 * r.gs.toNat)).toNat =
      r.fs.toNat + 2^16 * r.gs.toNat := by
    have := r.fs.toNat_lt
    have := r.gs.toNat_lt
    rw [UInt32.toNat_ofNat']
    omega
  simp only [fields, displaced, List.flatten_cons, List.flatten_nil, List.append_assoc,
    List.append_nil, hsegs, ← le_two_append r.fs.toNat_lt]

/-- Four bytes below the registers of the service is the middle of the flags that
the change of the mode saved. -/
theorem leave_displaced (ret : UInt16) {c : Cpu} (h : 52 ≤ c.sp) :
    readRegisters (rmToPm16 ret c.pushRegisters).mem (c.sp - 48) =
      displaced ret (setEsp c.regs (UInt32.ofNat (c.sp - 4))) := by
  obtain ⟨r, hr⟩ : ∃ r, r = setEsp c.regs (UInt32.ofNat (c.sp - 4)) := ⟨_, rfl⟩
  have hsplit : trail ret c.regs ++ (fields r).flatten =
      le 4 c.regs.eax.toNat ++ ((fields (displaced ret r)).flatten ++ le 4 r.eflags.toNat) := by
    rw [← fields_displaced, trail, List.append_assoc, List.append_assoc, hr]
    rfl
  rw [leave_mem ret h, ← hr, hsplit, ← store_append c.mem (Cdrom.length_le 4 _),
    show c.sp - 52 + 4 = c.sp - 48 by omega]
  refine (readRegisters_congr fun k _ => Cdrom.store_outside _ (.inr ?_)).trans
    (readRegisters_store c.mem (displaced ret r) (le 4 r.eflags.toNat))
  rw [Cdrom.length_le]
  omega

variable (stackData : List UInt8)

/-- The real mode stack of `bios_far_call`, from its lowest address `b`. -/
theorem farStack_eq {b : ℕ} (hb : b + stackData.length + 52 = stackTop) :
    ((((mem.store (stackTop - 4) (le 4 0)).store (b + 48) stackData).store (b + 44)
      (le 4 address.toNat)).store b (fields regs).flatten).store (stackTop - 4) (le 4 esp.toNat) =
    mem.store b ((fields regs).flatten ++
      (le 4 address.toNat ++ (stackData ++ le 4 esp.toNat))) := by
  have hpre : ((fields regs).flatten ++ (le 4 address.toNat ++ stackData)).length =
      48 + stackData.length := by
    simp only [List.length_append, length_fields, Cdrom.length_le]
    omega
  have hend : (le 4 0).length = (le 4 esp.toNat).length := by
    rw [Cdrom.length_le, Cdrom.length_le]
  rw [show stackTop - 4 = b + 48 + stackData.length by omega, store_append mem rfl,
    show b + 48 = b + 44 + 4 by omega, store_append mem (Cdrom.length_le 4 _),
    store_append mem (length_fields regs),
    show b + 44 + 4 + stackData.length = b + (48 + stackData.length) by omega]
  have hlast := store_end mem (a := b) hpre hend
  simp only [List.append_assoc] at hlast ⊢
  exact hlast

/-- The memory a far call is entered with. -/
def farMemory (b : ℕ) : Memory :=
  (mem.store (b - 8) (trail I.enter other ++ ((fields regs).flatten ++
    (le 4 address.toNat ++ (stackData ++ le 4 esp.toNat))))).store
    (regs.ds.toNat * 2^4 + I.farCallPtr.toNat) (le 4 address.toNat)

theorem biosFarCall_eq (far : ℕ → Service) {b : ℕ} (hb : b + stackData.length + 52 = stackTop)
    (hlow : 8 ≤ b) {out : Cpu}
    (hout : out = far address.toNat ⟨b + 48, setEsp regs other.esp,
      farMemory I address esp other regs mem stackData b⟩) :
    biosFarCall I far address stackData esp other regs mem =
      ⟨readRegisters (rmToPm16 I.leave out.pushRegisters).mem b,
        read32 (rmToPm16 I.leave out.pushRegisters).mem (stackTop - 4),
        (rmToPm16 I.leave out.pushRegisters).mem⟩ := by
  have hapi : apiFarCall I far ⟨b, other, mem.store b ((fields regs).flatten ++
      (le 4 address.toNat ++ (stackData ++ le 4 esp.toNat)))⟩ =
      rmToPm16 I.leave out.pushRegisters := by
    rw [@apiFarCall_eq _ _ _ _ _ _ address hlow rfl, hout]
    rfl
  rw [biosFarCall, show stackTop - 4 - stackData.length = b + 48 by omega, show b + 48 - 4 = b + 44 by omega,
    show b + 44 - 44 = b by omega, farStack_eq address esp regs mem stackData hb, hapi]

/-- What is pushed at `b` and above is there when the routine is entered, unless the
address of the routine was put over it. -/
theorem farMemory_apply {b i : ℕ} (hlow : 8 ≤ b)
    (hptr : regs.ds.toNat * 2^4 + I.farCallPtr.toNat + 4 ≤ b + 48 ∨
      b + 52 + stackData.length ≤ regs.ds.toNat * 2^4 + I.farCallPtr.toNat)
    (hi : i < stackData.length + 4) :
    farMemory I address esp other regs mem stackData b (b + 48 + i) =
      ((stackData ++ le 4 esp.toNat)[i]?).getD (mem (b + 48 + i)) := by
  have hlen : (trail I.enter other ++ ((fields regs).flatten ++ le 4 address.toNat)).length =
      56 := by
    simp only [List.length_append, length_trail, length_fields, Cdrom.length_le]
  rw [farMemory, Cdrom.store_outside _ (by rw [Cdrom.length_le]; omega),
    show b + 48 + i = b - 8 + (56 + i) by omega, Cdrom.store_apply, ← List.append_assoc,
    ← List.append_assoc, List.append_assoc (trail I.enter other),
    List.getElem?_append_right (by omega), hlen, Nat.add_sub_cancel_left]

theorem farMemory_outside {b a : ℕ} (hb : b + stackData.length + 52 = stackTop) (hlow : 8 ≤ b)
    (ha : a < b - 8 ∨ stackTop ≤ a) :
    farMemory I address esp other regs mem stackData b a =
      mem.store (regs.ds.toNat * 2^4 + I.farCallPtr.toNat) (le 4 address.toNat) a := by
  have hout : mem.store (b - 8) (trail I.enter other ++ ((fields regs).flatten ++
      (le 4 address.toNat ++ (stackData ++ le 4 esp.toNat)))) a = mem a := by
    refine Cdrom.store_outside mem ?_
    simp only [List.length_append, length_trail, length_fields, Cdrom.length_le]
    omega
  simp only [farMemory, Buffer.store] at hout ⊢
  rw [hout]

theorem farMemory_esp {b : ℕ} (hb : b + stackData.length + 52 = stackTop) (hlow : 8 ≤ b)
    (hptr : regs.ds.toNat * 2^4 + I.farCallPtr.toNat + 4 ≤ b + 48 ∨
      b + 52 + stackData.length ≤ regs.ds.toNat * 2^4 + I.farCallPtr.toNat) :
    read32 (farMemory I address esp other regs mem stackData b) (stackTop - 4) = esp.toNat := by
  have hsame : read32 (farMemory I address esp other regs mem stackData b) (stackTop - 4) =
      read32 (mem.store (b + 48) (stackData ++ (le 4 esp.toNat ++ []))) (stackTop - 4) := by
    refine read32_congr fun k hk => ?_
    rw [show stackTop - 4 + k = b + 48 + (stackData.length + k) by omega,
      farMemory_apply I address esp other regs mem stackData hlow hptr (by omega),
      Cdrom.store_apply, List.append_nil]
  rw [hsame, show stackTop - 4 = b + 48 + stackData.length by omega]
  exact read32_append mem rfl esp.toNat_lt

end Results

end Gandr.Bios.Calls
