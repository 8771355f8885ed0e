import Gandr.Bios.Services
import Gandr.Lib.Buffer
import Gandr.Lib.Word

/-! Reading a CD through the firmware: `pread` of `bal/platform/bios/device/cdrom.c`
and `read_sector` of `bal/fs/iso9660/iso9660.c`, over a memory of bytes. The disk
address packet is in that memory; the firmware finds it where the registers say. -/

namespace Gandr.Bios.Cdrom

abbrev Memory := Buffer UInt8

/-- Where the linker puts `lba_packet` and `scratch_buffer`, below 1 MiB. -/
structure Layout where
  lbaPacket : ℕ
  scratchBuffer : ℕ
  packet_low : lbaPacket + 16 ≤ 2^20
  scratch_low : scratchBuffer + 4096 ≤ 2^20
  apart : lbaPacket + 16 ≤ scratchBuffer ∨ scratchBuffer + 4096 ≤ lbaPacket

/-- The low `n` bytes of `x`, the lowest first. -/
def le (n x : ℕ) : List UInt8 := (List.range n).map fun i => UInt8.ofNat (x / 256^i)

def read16 (mem : Memory) (a : ℕ) : ℕ := (mem a).toNat + 256 * (mem (a + 1)).toNat

def read32 (mem : Memory) (a : ℕ) : ℕ := read16 mem a + 2^16 * read16 mem (a + 2)

def read64 (mem : Memory) (a : ℕ) : ℕ := read32 mem a + 2^32 * read32 mem (a + 4)

/-- The fields of `lba_packet` that vary. -/
structure Packet where
  blocks : ℕ
  bufferFarPtr : ℕ
  lba : ℕ

/-- The packet in memory, behind its size and a reserved byte. -/
def Packet.bytes (p : Packet) : List UInt8 :=
  [16, 0] ++ le 2 p.blocks ++ le 4 p.bufferFarPtr ++ le 8 p.lba

def readPacket (mem : Memory) (a : ℕ) : Packet :=
  ⟨read16 mem (a + 2), read32 mem (a + 4), read64 mem (a + 8)⟩

/-- `rm_far_from_ptr`. -/
def rmFarFromPtr (p : ℕ) : ℕ := p * 2^12 % 2^32 / 2^16 * 2^16 + p % 2^4

/-- The linear address of a far pointer in real mode. -/
def farLinear (fp : ℕ) : ℕ := fp / 2^16 * 2^4 + fp % 2^16

/-- Where int 0x13 looks for the packet: at DS:SI. -/
def packetAt (regs : Registers) : ℕ := regs.ds.toNat * 2^4 + regs.esi.toNat % 2^16

/-- What the call of the given number does to memory and registers. -/
abbrev Int13 := ℕ → Memory → Registers → Memory × Registers

inductive Status where
  | ok
  | einval
  | eio
  deriving DecidableEq

structure Reply where
  status : Status
  nbytesread : ℕ
  mem : Memory
  /-- memory and registers at each call of int 0x13 -/
  calls : List (Memory × Registers)

section Pread

variable (L : Layout) (bios : Int13) (driveNumber : UInt8)

/-- The buffer handed to the firmware and the bytes asked for, of `nbytes` > 0. -/
def transfer (buf nbytes : ℕ) : ℕ × ℕ :=
  if buf > 0x100000 - 2048 then
    (L.scratchBuffer, if nbytes > 4096 then 4096 else nbytes)
  else
    (buf, if nbytes > 0x100000 - buf then (0x100000 - buf) / 2048 * 2048 else nbytes)

def lbaPacketFor (readBuffer nbytes offset : ℕ) : Packet where
  blocks := if nbytes / 2048 > 0x7F then 0x7F else nbytes / 2048
  bufferFarPtr := rmFarFromPtr readBuffer
  lba := offset / 2048

/-- The registers of the call: the offset of the packet goes into EDI. -/
def preadRegisters : Registers :=
  { eax := 0x4200
    edx := driveNumber.toUInt32
    ds := rmSegFromPtr L.lbaPacket
    edi := (rmOffsetFromPtr L.lbaPacket).toUInt32 }

/-- `pread`, with room for `depth` more calls of itself; `n` calls of int 0x13
were made before. -/
def pread (buf : ℕ) : (depth n nbytes offset : ℕ) → Memory → Option Reply
  | 0, _, _, _, _ => none
  | depth + 1, n, nbytes, offset, mem =>
    if offset % 2048 ≠ 0 then some ⟨.einval, 0, mem, []⟩
    else
      let nbytes := nbytes / 2048 * 2048
      if nbytes = 0 then some ⟨.ok, 0, mem, []⟩
      else
        let (readBuffer, nbytes) := transfer L buf nbytes
        let mem := mem.store L.lbaPacket (lbaPacketFor readBuffer nbytes offset).bytes
        let call := (mem, preadRegisters L driveNumber)
        let (mem, regs) := bios n call.1 call.2
        let blocks := read16 mem (L.lbaPacket + 2)
        if regs.carry ∨ blocks = 0 then
          if nbytes > 2048 then
            (pread buf depth (n + 1) 2048 offset mem).map fun r =>
              { r with calls := call :: r.calls }
          else some ⟨.eio, 0, mem, [call]⟩
        else
          let mem := if readBuffer = buf then mem
            else mem.memcpy buf mem readBuffer (blocks * 2048)
          some ⟨.ok, blocks * 2048, mem, [call]⟩

/-- `read_sector`: the offset is a product of 32 bits. -/
def readSector (buf : ℕ) (sector : UInt32) (mem : Memory) : Option (Bool × Reply) :=
  (pread L bios driveNumber buf 2 0 2048 (Word.mul 32 sector.toNat 2048) mem).map fun r =>
    (r.status = .ok && r.nbytesread = 2048, r)

end Pread

section Packets

variable (mem : Memory) (P : ℕ)

theorem store_apply (vs : List UInt8) (k : ℕ) :
    mem.store P vs (P + k) = (vs[k]?).getD (mem (P + k)) := by
  simp [Buffer.store]

theorem store_outside {P : ℕ} {vs : List UInt8} {x : ℕ} (h : x < P ∨ P + vs.length ≤ x) :
    mem.store P vs x = mem x := by
  unfold Buffer.store
  split_ifs with hle
  · rw [List.getElem?_eq_none (by omega), Option.getD_none]
  · rfl

theorem length_le (n x : ℕ) : (le n x).length = n := by
  rw [le, List.length_map, List.length_range]

theorem toNat_byte (x i : ℕ) : (UInt8.ofNat (x / 256^i)).toNat = x / 256^i % 256 :=
  UInt8.toNat_ofNat'

/-- The firmware reads the packet that was stored. -/
theorem readPacket_store {p : Packet} (h₁ : p.blocks < 2^16) (h₂ : p.bufferFarPtr < 2^32)
    (h₃ : p.lba < 2^64) : readPacket (mem.store P p.bytes) P = p := by
  have hbyte : ∀ k, mem.store P p.bytes (P + k) = (p.bytes[k]?).getD (mem (P + k)) :=
    store_apply mem P p.bytes
  obtain ⟨blocks, far, lba⟩ := p
  simp only [readPacket, read64, read32, read16, Nat.add_assoc, hbyte, Packet.mk.injEq]
  simp only [Packet.bytes, le, List.range_succ_eq_map, List.range_zero, List.map_cons,
    List.map_nil, List.cons_append, List.nil_append, List.getElem?_cons_succ, List.getElem?_cons_zero,
    Option.getD_some, toNat_byte, Nat.reduceAdd]
  norm_num only at h₁ h₂ h₃ ⊢
  refine ⟨?_, ?_, ?_⟩ <;> omega

theorem farLinear_rmFarFromPtr {p : ℕ} (h : p < 2^20) : farLinear (rmFarFromPtr p) = p := by
  unfold farLinear rmFarFromPtr
  omega

theorem rmFarFromPtr_lt (p : ℕ) : rmFarFromPtr p < 2^32 := by
  unfold rmFarFromPtr
  omega

/-- With its offset in EDI and not in SI, the packet is found if it starts a paragraph. -/
theorem packetAt_preadRegisters (L : Layout) (driveNumber : UInt8) :
    packetAt (preadRegisters L driveNumber) = L.lbaPacket / 16 * 16 := by
  have hlow := L.packet_low
  simp only [packetAt, preadRegisters, rmSegFromPtr, UInt16.toNat_ofNat', UInt32.toNat_zero]
  omega

end Packets

/-- The documented behaviour of int 0x13, function 0x42, on a disk: a call that
reports success has transferred some of the blocks that the packet at DS:SI asks
for, has stored their number in the packet and has changed nothing else. -/
def Honest (disk : Buffer UInt8) (bios : Int13) : Prop :=
  ∀ n mem regs, (bios n mem regs).2.carry = false →
    ∃ k ≤ (readPacket mem (packetAt regs)).blocks,
      (bios n mem regs).1 =
        (mem.memcpy (farLinear (readPacket mem (packetAt regs)).bufferFarPtr) disk
          (2048 * (readPacket mem (packetAt regs)).lba) (2048 * k)).store
          (packetAt regs + 2) (le 2 k)

/-- Firmware that transfers everything it is asked for. -/
def transferAll (disk : Buffer UInt8) : Int13 := fun _ mem regs =>
  let p := readPacket mem (packetAt regs)
  ((mem.memcpy (farLinear p.bufferFarPtr) disk (2048 * p.lba) (2048 * p.blocks)).store
    (packetAt regs + 2) (le 2 p.blocks), { regs with eflags := 0 })

theorem honest_transferAll (disk : Buffer UInt8) : Honest disk (transferAll disk) :=
  fun _ _ _ _ => ⟨_, le_rfl, rfl⟩

/-- A buffer of 2048 bytes that is neither the packet nor the scratch buffer. -/
def Apart (L : Layout) (buf : ℕ) : Prop :=
  (buf + 2048 ≤ L.lbaPacket ∨ L.lbaPacket + 16 ≤ buf) ∧
    (buf + 2048 ≤ L.scratchBuffer ∨ L.scratchBuffer + 4096 ≤ buf)

/-- The firmware is called once, with the packet of `pread` that asks for block
`sector`, and success means that the buffer holds that block. -/
def ReadsSector (L : Layout) (disk : Buffer UInt8) (bios : Int13) (driveNumber : UInt8)
    (buf : ℕ) (sector : UInt32) (mem : Memory) : Prop :=
  ∃ ok r, readSector L bios driveNumber buf sector mem = some (ok, r) ∧
    (∃ mem₀ regs, r.calls = [(mem₀, regs)] ∧ packetAt regs = L.lbaPacket ∧
      (readPacket mem₀ L.lbaPacket).blocks = 1 ∧
      (readPacket mem₀ L.lbaPacket).lba = sector.toNat) ∧
    (ok = true → ∀ i < 2048, r.mem (buf + i) = disk (2048 * sector.toNat + i))

section Sector

variable {L : Layout} {disk : Buffer UInt8} {bios : Int13} {driveNumber : UInt8} {buf : ℕ}
  {sector : UInt32} {mem : Memory}

/-- The buffer that one block is read into. -/
def readBuffer (L : Layout) (buf : ℕ) : ℕ :=
  if buf > 0x100000 - 2048 then L.scratchBuffer else buf

theorem transfer_sector (L : Layout) (buf : ℕ) : transfer L buf 2048 = (readBuffer L buf, 2048) := by
  unfold transfer readBuffer
  split_ifs <;> first | rfl | omega

theorem readBuffer_low (L : Layout) (buf : ℕ) : readBuffer L buf < 2^20 := by
  have := L.scratch_low
  unfold readBuffer
  split_ifs <;> omega

/-- The packet of a sector: the block number wraps at 4 GiB. -/
def sectorPacket (L : Layout) (buf : ℕ) (sector : UInt32) : Packet :=
  ⟨1, rmFarFromPtr (readBuffer L buf), sector.toNat % 2^21⟩

theorem lbaPacketFor_sector :
    lbaPacketFor (readBuffer L buf) 2048 (Word.mul 32 sector.toNat 2048) =
      sectorPacket L buf sector := by
  simp only [lbaPacketFor, sectorPacket, Packet.mk.injEq, Word.mul]
  refine ⟨by decide, trivial, ?_⟩
  omega

theorem readPacket_sector :
    readPacket (mem.store L.lbaPacket (sectorPacket L buf sector).bytes) L.lbaPacket =
      sectorPacket L buf sector :=
  readPacket_store mem L.lbaPacket (by decide : 1 < 2^16) (rmFarFromPtr_lt _)
    (by simp only [sectorPacket]; omega)

/-- `read_sector` unfolded: one call, and a copy if the scratch buffer was used. -/
theorem readSector_eq : readSector L bios driveNumber buf sector mem =
    let mem₀ := mem.store L.lbaPacket (sectorPacket L buf sector).bytes
    let call := (mem₀, preadRegisters L driveNumber)
    let (mem₁, regs) := bios 0 mem₀ (preadRegisters L driveNumber)
    let blocks := read16 mem₁ (L.lbaPacket + 2)
    if regs.carry ∨ blocks = 0 then some (false, ⟨.eio, 0, mem₁, [call]⟩)
    else
      let mem₂ := if readBuffer L buf = buf then mem₁
        else mem₁.memcpy buf mem₁ (readBuffer L buf) (blocks * 2048)
      some (decide (blocks = 1), ⟨.ok, blocks * 2048, mem₂, [call]⟩) := by
  have hoff : ¬ Word.mul 32 sector.toNat 2048 % 2048 ≠ 0 := by
    unfold Word.mul
    omega
  unfold readSector pread
  rw [if_neg hoff]
  simp only [Nat.reduceDiv, Nat.reduceMul, transfer_sector, lbaPacketFor_sector]
  rw [if_neg (by decide)]
  by_cases hfail : (bios 0 (mem.store L.lbaPacket (sectorPacket L buf sector).bytes)
      (preadRegisters L driveNumber)).2.carry = true ∨
      read16 (bios 0 (mem.store L.lbaPacket (sectorPacket L buf sector).bytes)
        (preadRegisters L driveNumber)).1 (L.lbaPacket + 2) = 0
  · rw [if_pos hfail, if_pos hfail, if_neg (by decide)]
    rfl
  · rw [if_neg hfail, if_neg hfail, Option.map_some]
    congr 2
    simp only [decide_true, Bool.true_and]
    refine decide_eq_decide.mpr ?_
    omega

/-- The one call, whatever it answers. -/
theorem readSector_calls {ok : Bool} {r : Reply}
    (h : readSector L bios driveNumber buf sector mem = some (ok, r)) :
    r.calls = [(mem.store L.lbaPacket (sectorPacket L buf sector).bytes,
      preadRegisters L driveNumber)] := by
  rw [readSector_eq] at h
  dsimp only at h
  split_ifs at h <;>
  · cases h
    rfl

/-- Where the packet is found, success fills the buffer with the block asked for. -/
theorem readSector_fills {ok : Bool} {r : Reply} (hb : Honest disk bios) (hbuf : Apart L buf)
    (halign : L.lbaPacket % 16 = 0)
    (h : readSector L bios driveNumber buf sector mem = some (ok, r)) (hok : ok = true) :
    ∀ i < 2048, r.mem (buf + i) = disk (2048 * (sector.toNat % 2^21) + i) := by
  have hat : packetAt (preadRegisters L driveNumber) = L.lbaPacket := by
    rw [packetAt_preadRegisters]
    omega
  have hlow := readBuffer_low L buf
  have hclear : readBuffer L buf + 2048 ≤ L.lbaPacket ∨ L.lbaPacket + 16 ≤ readBuffer L buf := by
    have := L.apart
    unfold readBuffer
    split_ifs
    · omega
    · exact hbuf.1
  rw [readSector_eq] at h
  dsimp only at h
  split_ifs at h with hfail hsame
  · cases h
    cases hok
  all_goals
    cases h
    have hone := of_decide_eq_true hok
    obtain ⟨hcarry, -⟩ := not_or.mp hfail
    obtain ⟨k, hk, hmem⟩ := hb 0 _ _ (Bool.eq_false_iff.mpr hcarry)
    rw [hat, readPacket_sector] at hk hmem
    have hk : k ≤ 1 := hk
    have hstored : read16 (bios 0 (mem.store L.lbaPacket (sectorPacket L buf sector).bytes)
        (preadRegisters L driveNumber)).1 (L.lbaPacket + 2) = k := by
      rw [hmem]
      simp only [read16, Nat.add_assoc, Buffer.store]
      interval_cases k <;> simp [le]
    obtain rfl : k = 1 := hstored.symm.trans hone
    have hblock : ∀ i < 2048, (bios 0 (mem.store L.lbaPacket (sectorPacket L buf sector).bytes)
        (preadRegisters L driveNumber)).1 (readBuffer L buf + i) =
          disk (2048 * (sector.toNat % 2^21) + i) := by
      intro i hi
      rw [hmem, store_outside _ (by rw [length_le]; omega)]
      simp only [sectorPacket, farLinear_rmFarFromPtr hlow]
      rw [Buffer.memcpy, if_pos (by omega), Nat.add_sub_cancel_left]
  · intro i hi
    have := hblock i hi
    rwa [hsame] at this
  · intro i hi
    rw [hone]
    have hin : buf ≤ buf + i ∧ buf + i < buf + 1 * 2048 := by omega
    simp only [Buffer.memcpy, if_pos hin, Nat.add_sub_cancel_left]
    exact hblock i hi

end Sector

/-- On every honest firmware `read_sector` reads the sector it is asked for
exactly if the packet starts a paragraph and the sector is below 4 GiB. -/
theorem readSector_reads_iff (L : Layout) (disk : Buffer UInt8) (driveNumber : UInt8) (buf : ℕ)
    (hbuf : Apart L buf) (sector : UInt32) :
    (∀ bios mem, Honest disk bios → ReadsSector L disk bios driveNumber buf sector mem) ↔
      L.lbaPacket % 16 = 0 ∧ sector.toNat < 2^21 := by
  constructor
  · intro h
    obtain ⟨ok, r, hr, ⟨mem₀, regs, hcalls, hat, -, hlba⟩, -⟩ :=
      h (transferAll disk) (fun _ => 0) (honest_transferAll disk)
    rw [readSector_calls hr] at hcalls
    cases hcalls
    rw [packetAt_preadRegisters] at hat
    rw [readPacket_sector] at hlba
    simp only [sectorPacket] at hlba
    omega
  · rintro ⟨halign, hlt⟩ bios mem hb
    have hsome : ∃ ok r, readSector L bios driveNumber buf sector mem = some (ok, r) := by
      rw [readSector_eq]
      dsimp only
      split_ifs <;> exact ⟨_, _, rfl⟩
    obtain ⟨ok, r, hr⟩ := hsome
    refine ⟨ok, r, hr, ⟨_, _, readSector_calls hr, ?_, ?_, ?_⟩, ?_⟩
    · rw [packetAt_preadRegisters]
      omega
    · rw [readPacket_sector]
      rfl
    · rw [readPacket_sector]
      exact Nat.mod_eq_of_lt hlt
    · intro hok
      have hfill := readSector_fills hb hbuf halign hr hok
      rwa [Nat.mod_eq_of_lt hlt] at hfill

/-- A packet that starts a paragraph, in the image from 0x10000 on. -/
def alignedLayout : Layout where
  lbaPacket := 0x12340
  scratchBuffer := 0x13000
  packet_low := by decide
  scratch_low := by decide
  apart := by decide

theorem aligned_reads_sector :
    ReadsSector alignedLayout (fun i => UInt8.ofNat (i / 2048)) (transferAll fun i =>
      UInt8.ofNat (i / 2048)) 0xE0 0x200000 16 (fun _ => 0) :=
  (readSector_reads_iff alignedLayout _ 0xE0 0x200000 (by unfold Apart; decide) 16).mpr
    ⟨by decide, by decide⟩ _ _ (honest_transferAll _)

/-- For the first sector behind 4 GiB the firmware is asked for sector 0. -/
theorem aligned_wraps :
    ¬ ∀ bios mem, Honest (fun i => UInt8.ofNat (i / 2048)) bios →
      ReadsSector alignedLayout (fun i => UInt8.ofNat (i / 2048)) bios 0xE0 0x200000 0x200000 mem := by
  intro h
  obtain ⟨ok, r, hr, ⟨mem₀, regs, hcalls, -, -, hlba⟩, -⟩ := h _ (fun _ => 0) (honest_transferAll _)
  rw [readSector_calls hr] at hcalls
  cases hcalls
  rw [readPacket_sector] at hlba
  exact absurd hlba (by decide)

end Gandr.Bios.Cdrom
