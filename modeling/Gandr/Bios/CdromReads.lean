import Gandr.Bios.Cdrom

/-! What `pread` of `bal/platform/bios/device/cdrom.c` promises its callers, over
every firmware that answers int 0x13 honestly. -/

namespace Gandr.Bios.Cdrom

/-- A buffer of `nbytes` bytes that is neither the packet nor the scratch buffer. -/
def ApartBy (L : Layout) (buf nbytes : ℕ) : Prop :=
  (buf + nbytes ≤ L.lbaPacket ∨ L.lbaPacket + 16 ≤ buf) ∧
    (buf + nbytes ≤ L.scratchBuffer ∨ L.scratchBuffer + 4096 ≤ buf)

/-- The transfer that a packet asks for stays in the caller's buffer, below 1 MiB, or
in the scratch buffer. -/
def InBounds (L : Layout) (buf nbytes : ℕ) (p : Packet) : Prop :=
  (buf ≤ farLinear p.bufferFarPtr ∧
      farLinear p.bufferFarPtr + 2048 * p.blocks ≤ buf + nbytes ∧
      farLinear p.bufferFarPtr + 2048 * p.blocks ≤ 2^20) ∨
    (L.scratchBuffer ≤ farLinear p.bufferFarPtr ∧
      farLinear p.bufferFarPtr + 2048 * p.blocks ≤ L.scratchBuffer + 4096)

/-- A reply after at most `calls` calls of the firmware. -/
structure Good (L : Layout) (disk : Buffer UInt8) (buf nbytes offset calls : ℕ) (r : Reply) :
    Prop where
  calls : r.calls.length ≤ calls
  whole : r.status = .ok → r.nbytesread % 2048 = 0 ∧ r.nbytesread ≤ nbytes
  filled : r.status = .ok → ∀ i < r.nbytesread, r.mem (buf + i) = disk (offset + i)
  failed : r.status ≠ .ok → r.nbytesread = 0
  asked : ∀ call ∈ r.calls, InBounds L buf nbytes (readPacket call.1 (packetAt call.2))

/-- `pread` returns after two calls at most, with a good reply. -/
def ReadsWell (L : Layout) (disk : Buffer UInt8) (bios : Int13) (driveNumber : UInt8)
    (buf nbytes offset : ℕ) (mem : Memory) : Prop :=
  ∃ r, pread L bios driveNumber buf 2 0 nbytes offset mem = some r ∧
    Good L disk buf nbytes offset 2 r

section Step

variable {L : Layout} {disk : Buffer UInt8} {bios : Int13} {driveNumber : UInt8}
  {buf nbytes offset : ℕ} {mem : Memory}

/-- Where the transfer goes and how long it is. -/
theorem transfer_spec (hn : nbytes % 2048 = 0) (hpos : nbytes ≠ 0) :
    2048 ≤ (transfer L buf nbytes).2 ∧ (transfer L buf nbytes).2 ≤ nbytes ∧
      ((transfer L buf nbytes).1 = buf ∧ buf + (transfer L buf nbytes).2 ≤ 2^20 ∨
        (transfer L buf nbytes).1 = L.scratchBuffer ∧ (transfer L buf nbytes).2 ≤ 4096) := by
  unfold transfer
  split_ifs <;> dsimp only <;> omega

/-- The number of blocks in the packet. -/
theorem lbaPacketFor_blocks {rb : ℕ} (h : 2048 ≤ nbytes) :
    1 ≤ (lbaPacketFor rb nbytes offset).blocks ∧ (lbaPacketFor rb nbytes offset).blocks ≤ 127 ∧
      2048 * (lbaPacketFor rb nbytes offset).blocks ≤ nbytes := by
  simp only [lbaPacketFor]
  split_ifs <;> omega

theorem readPacket_lbaPacketFor {rb : ℕ} (h : 2048 ≤ nbytes) (hoff : offset < 2^64) :
    readPacket (mem.store L.lbaPacket (lbaPacketFor rb nbytes offset).bytes) L.lbaPacket =
      lbaPacketFor rb nbytes offset := by
  obtain ⟨-, hb, -⟩ := @lbaPacketFor_blocks nbytes offset rb h
  refine readPacket_store mem L.lbaPacket (by omega) (rmFarFromPtr_lt rb) ?_
  simp only [lbaPacketFor]
  omega

theorem read16_store_le {a k : ℕ} (h : k < 2^16) : read16 (mem.store a (le 2 k)) a = k := by
  simp only [read16, Buffer.store]
  simp [le, List.range_succ]
  omega

/-- A call that finds the packet and reports success has filled the buffer of the
transfer with as many blocks as it says. -/
theorem honest_call {rb n : ℕ} (hb : Honest disk bios) (halign : L.lbaPacket % 16 = 0)
    (hoff : offset < 2^64) (hblock : offset % 2048 = 0) (hlen : 2048 ≤ nbytes)
    (hrb : rb + nbytes ≤ 2^20)
    (hapart : rb + nbytes ≤ L.lbaPacket ∨ L.lbaPacket + 16 ≤ rb)
    (hcarry : (bios n (mem.store L.lbaPacket (lbaPacketFor rb nbytes offset).bytes)
      (preadRegisters L driveNumber)).2.carry = false) :
    let mem₁ := (bios n (mem.store L.lbaPacket (lbaPacketFor rb nbytes offset).bytes)
      (preadRegisters L driveNumber)).1
    2048 * read16 mem₁ (L.lbaPacket + 2) ≤ nbytes ∧
      ∀ i < 2048 * read16 mem₁ (L.lbaPacket + 2), mem₁ (rb + i) = disk (offset + i) := by
  have hat : packetAt (preadRegisters L driveNumber) = L.lbaPacket := by
    rw [packetAt_preadRegisters]
    omega
  obtain ⟨h₁, h₂, h₃⟩ := @lbaPacketFor_blocks nbytes offset rb hlen
  obtain ⟨k, hk, hmem⟩ := hb n _ _ hcarry
  rw [hat, readPacket_lbaPacketFor hlen hoff] at hk hmem
  dsimp only
  rw [hmem, read16_store_le (by omega)]
  refine ⟨by omega, fun i hi => ?_⟩
  rw [store_outside _ (by rw [length_le]; omega)]
  simp only [lbaPacketFor, farLinear_rmFarFromPtr (show rb < 2^20 by omega)]
  rw [Buffer.memcpy, if_pos (by omega), Nat.add_sub_cancel_left]
  congr 1
  omega

theorem Good.mono {calls : ℕ} {r : Reply} (h : Good L disk buf 2048 offset calls r)
    (hn : 2048 ≤ nbytes) : Good L disk buf nbytes offset calls r where
  calls := h.calls
  whole := fun hok => ⟨(h.whole hok).1, (h.whole hok).2.trans hn⟩
  filled := h.filled
  failed := h.failed
  asked := fun call hcall => (h.asked call hcall).imp (fun ⟨h₁, h₂, h₃⟩ => ⟨h₁, by omega, h₃⟩) id

/-- The packet that is found asks for a transfer within bounds. -/
theorem asked_inBounds {rb len : ℕ} (halign : L.lbaPacket % 16 = 0) (hoff : offset < 2^64)
    (hlen : 2048 ≤ len) (hle : len ≤ nbytes)
    (hplace : rb = buf ∧ buf + len ≤ 2^20 ∨ rb = L.scratchBuffer ∧ len ≤ 4096) :
    InBounds L buf nbytes (readPacket (mem.store L.lbaPacket (lbaPacketFor rb len offset).bytes)
      (packetAt (preadRegisters L driveNumber))) := by
  have hat : packetAt (preadRegisters L driveNumber) = L.lbaPacket := by
    rw [packetAt_preadRegisters]
    omega
  have hlow := L.scratch_low
  obtain ⟨-, -, hblocks⟩ := @lbaPacketFor_blocks len offset rb hlen
  have hfar : farLinear (lbaPacketFor rb len offset).bufferFarPtr = rb :=
    farLinear_rmFarFromPtr (by omega)
  rw [hat, readPacket_lbaPacketFor hlen hoff, InBounds, hfar]
  omega

theorem good_nothing {calls : ℕ} : Good L disk buf nbytes offset calls ⟨.ok, 0, mem, []⟩ where
  calls := Nat.zero_le _
  whole _ := ⟨rfl, Nat.zero_le _⟩
  filled _ i hi := absurd hi (Nat.not_lt_zero i)
  failed _ := rfl
  asked := by simp

theorem good_failed {calls : ℕ} {status : Status} {asked : List (Memory × Registers)}
    (hstatus : status ≠ .ok) (hcalls : asked.length ≤ calls)
    (hasked : ∀ call ∈ asked, InBounds L buf nbytes (readPacket call.1 (packetAt call.2))) :
    Good L disk buf nbytes offset calls ⟨status, 0, mem, asked⟩ where
  calls := hcalls
  whole hok := absurd hok hstatus
  filled hok := absurd hok hstatus
  failed _ := rfl
  asked := hasked

/-- One round of `pread`, given what the retry of one block answers. -/
theorem pread_step {depth n calls : ℕ} (hb : Honest disk bios) (halign : L.lbaPacket % 16 = 0)
    (hoff : offset < 2^64) (hapart : ApartBy L buf nbytes)
    (hretry : 2048 < (transfer L buf (nbytes / 2048 * 2048)).2 → ∀ mem,
      ∃ r, pread L bios driveNumber buf depth (n + 1) 2048 offset mem = some r ∧
        Good L disk buf 2048 offset calls r) :
    ∃ r, pread L bios driveNumber buf (depth + 1) n nbytes offset mem = some r ∧
      Good L disk buf nbytes offset (calls + 1) r := by
  unfold pread
  by_cases hblock : offset % 2048 = 0
  swap
  · rw [if_pos hblock]
    exact ⟨_, rfl, good_failed (by decide) (Nat.zero_le _) (by simp)⟩
  rw [if_neg (not_not.mpr hblock)]
  dsimp only
  by_cases hz : nbytes / 2048 * 2048 = 0
  · rw [if_pos hz]
    exact ⟨_, rfl, good_nothing⟩
  rw [if_neg hz]
  have htransfer := @transfer_spec L buf _ (Nat.mul_mod_left (nbytes / 2048) 2048) hz
  generalize transfer L buf (nbytes / 2048 * 2048) = t at hretry htransfer ⊢
  obtain ⟨rb, len⟩ := t
  obtain ⟨hlen, hle, hplace⟩ := htransfer
  dsimp only at hretry hlen hle hplace ⊢
  have hle : len ≤ nbytes := hle.trans (Nat.div_mul_le_self nbytes 2048)
  have hasked : InBounds L buf nbytes (readPacket
      (mem.store L.lbaPacket (lbaPacketFor rb len offset).bytes)
      (packetAt (preadRegisters L driveNumber))) :=
    asked_inBounds halign hoff hlen hle hplace
  by_cases hfail : (bios n (mem.store L.lbaPacket (lbaPacketFor rb len offset).bytes)
      (preadRegisters L driveNumber)).2.carry = true ∨
      read16 (bios n (mem.store L.lbaPacket (lbaPacketFor rb len offset).bytes)
        (preadRegisters L driveNumber)).1 (L.lbaPacket + 2) = 0
  · rw [if_pos hfail]
    by_cases hlong : len > 2048
    · rw [if_pos hlong]
      obtain ⟨r, hr, hgood⟩ := hretry hlong (bios n (mem.store L.lbaPacket
        (lbaPacketFor rb len offset).bytes) (preadRegisters L driveNumber)).1
      have hgood := hgood.mono (hlong.le.trans hle)
      rw [hr, Option.map_some]
      refine ⟨_, rfl, Nat.succ_le_succ hgood.calls, hgood.whole, hgood.filled, hgood.failed, ?_⟩
      exact List.forall_mem_cons.mpr ⟨hasked, hgood.asked⟩
    · rw [if_neg hlong]
      exact ⟨_, rfl, good_failed (by decide) (by simp) (List.forall_mem_singleton.mpr hasked)⟩
  · rw [if_neg hfail]
    obtain ⟨hcarry, -⟩ := not_or.mp hfail
    have hlow := L.scratch_low
    have hfar := L.apart
    obtain ⟨hpacket, -⟩ := hapart
    obtain ⟨hread, hdata⟩ := @honest_call L disk bios driveNumber len offset mem rb n hb halign hoff
      hblock hlen (by omega) (by omega) (Bool.eq_false_iff.mpr hcarry)
    refine ⟨_, rfl, by simp, fun _ => ⟨Nat.mul_mod_left _ _, ?_⟩, fun _ i hi => ?_, ?_, ?_⟩
    · dsimp only
      omega
    · dsimp only at hi ⊢
      rw [Nat.mul_comm] at hi
      split_ifs with hsame
      · rw [← hsame]
        exact hdata i hi
      · rw [Buffer.memcpy, if_pos (by omega), Nat.add_sub_cancel_left]
        exact hdata i hi
    · intro hne
      exact absurd rfl hne
    · exact List.forall_mem_singleton.mpr hasked

/-- A packet that starts a paragraph is found, and every reply is good. -/
theorem readsWell_of_aligned (hb : Honest disk bios) (halign : L.lbaPacket % 16 = 0)
    (hoff : offset < 2^64) (hapart : ApartBy L buf nbytes) :
    ReadsWell L disk bios driveNumber buf nbytes offset mem := by
  refine pread_step hb halign hoff hapart fun hlong mem => ?_
  have hlen : (transfer L buf (nbytes / 2048 * 2048)).2 ≤ nbytes := by
    refine le_trans ?_ (Nat.div_mul_le_self nbytes 2048)
    refine (transfer_spec (Nat.mul_mod_left _ _) fun hz => ?_).2.1
    rw [hz] at hlong
    unfold transfer at hlong
    split_ifs at hlong <;> dsimp only at hlong <;> omega
  refine pread_step hb halign hoff ?_ fun hlong => ?_
  · unfold ApartBy at hapart ⊢
    omega
  · rw [show 2048 / 2048 * 2048 = 2048 from rfl, transfer_sector] at hlong
    exact absurd hlong (lt_irrefl _)

/-- `pread` up to its first call: the packet is in memory and the call is recorded. -/
theorem pread_first_call {depth n : ℕ} {r : Reply} (hblock : offset % 2048 = 0)
    (hlen : 2048 ≤ nbytes)
    (h : pread L bios driveNumber buf (depth + 1) n nbytes offset mem = some r) :
    let t := transfer L buf (nbytes / 2048 * 2048)
    (mem.store L.lbaPacket (lbaPacketFor t.1 t.2 offset).bytes, preadRegisters L driveNumber) ∈
      r.calls := by
  unfold pread at h
  rw [if_neg (not_not.mpr hblock)] at h
  dsimp only at h ⊢
  rw [if_neg (by omega)] at h
  split_ifs at h
  · obtain ⟨r', -, rfl⟩ := Option.map_eq_some_iff.mp h
    exact List.mem_cons_self
  all_goals
    cases h
    exact List.mem_cons_self

/-- One byte too far down, the block count is read 256 times too large. -/
theorem blocks_one_below {rb len : ℕ} (hlen : 2048 ≤ len) (hone : L.lbaPacket % 16 = 1) :
    (readPacket (mem.store L.lbaPacket (lbaPacketFor rb len offset).bytes)
      (packetAt (preadRegisters L driveNumber))).blocks =
        256 * (lbaPacketFor rb len offset).blocks := by
  have hat : packetAt (preadRegisters L driveNumber) + 2 = L.lbaPacket + 1 := by
    rw [packetAt_preadRegisters]
    omega
  obtain ⟨-, hblocks, -⟩ := @lbaPacketFor_blocks len offset rb hlen
  simp only [readPacket, hat, read16, Nat.add_assoc, store_apply]
  simp [Packet.bytes, le, List.range_succ]
  omega

end Step

/-- Firmware that reports success and has transferred nothing. -/
def transferNone : Int13 := fun _ mem regs =>
  (mem.store (packetAt regs + 2) (le 2 0), { regs with eflags := 0 })

theorem honest_transferNone (disk : Buffer UInt8) : Honest disk transferNone := by
  intro n mem regs _
  refine ⟨0, Nat.zero_le _, ?_⟩
  have hcopy : mem.memcpy (farLinear (readPacket mem (packetAt regs)).bufferFarPtr) disk
      (2048 * (readPacket mem (packetAt regs)).lba) (2048 * 0) = mem := by
    funext x
    rw [Buffer.memcpy, if_neg (by omega)]
  rw [hcopy]
  rfl

theorem transferNone_outside {n x : ℕ} {mem : Memory} {regs : Registers}
    (h : packetAt regs + 4 ≤ x) : (transferNone n mem regs).1 x = mem x := by
  refine store_outside mem (.inr ?_)
  rw [length_le]
  exact h

theorem transferNone_zero {n x : ℕ} {mem : Memory} {regs : Registers} (h : mem x = 0) :
    (transferNone n mem regs).1 x = 0 := by
  simp only [transferNone, Buffer.store]
  split_ifs with hx
  · cases hk : (le 2 0)[x - (packetAt regs + 2)]? with
    | none => exact h
    | some v =>
      obtain ⟨i, -, hi⟩ := List.mem_map.mp (List.mem_of_getElem? hk)
      simpa using hi.symm
  · exact h

section Misaligned

variable {L : Layout} {disk : Buffer UInt8} {bios : Int13} {driveNumber : UInt8}
  {buf nbytes offset : ℕ} {mem : Memory}

/-- No buffer has room for 256 times the blocks. -/
theorem not_inBounds_scaled {a : ℕ} {p : Packet} (hlen : 2048 ≤ nbytes)
    (hp : p.blocks = 256 * (lbaPacketFor a (transfer L buf (nbytes / 2048 * 2048)).2 offset).blocks) :
    ¬ InBounds L buf nbytes p := by
  have hfits : (transfer L buf (nbytes / 2048 * 2048)).2 + 2048 > nbytes ∨
      (transfer L buf (nbytes / 2048 * 2048)).2 + 2048 > 2^20 - buf ∨
      buf > 0x100000 - 2048 := by
    unfold transfer
    split_ifs <;> dsimp only <;> omega
  have hshort := (@transfer_spec L buf _ (Nat.mul_mod_left (nbytes / 2048) 2048) (by omega)).1
  unfold InBounds
  simp only [lbaPacketFor] at hp
  split_ifs at hp <;> omega

theorem not_readsWell_one (hone : L.lbaPacket % 16 = 1) (hblock : offset % 2048 = 0)
    (hlen : 2048 ≤ nbytes) : ¬ ReadsWell L disk bios driveNumber buf nbytes offset mem := by
  rintro ⟨r, hr, hgood⟩
  have hcall := pread_first_call hblock hlen hr
  have hshort := (@transfer_spec L buf _ (Nat.mul_mod_left (nbytes / 2048) 2048) (by omega)).1
  have hblocks := @blocks_one_below L driveNumber offset mem
    (transfer L buf (nbytes / 2048 * 2048)).1 _ hshort hone
  have hin := hgood.asked _ hcall
  dsimp only at hin
  exact not_inBounds_scaled hlen hblocks hin

/-- Further down, the number of blocks stored by the firmware is not in the packet. -/
theorem not_readsWell_below (hbelow : 2 ≤ L.lbaPacket % 16) (hblock : offset % 2048 = 0)
    (hoff : offset < 2^64) (hlen : 2048 ≤ nbytes) (hapart : ApartBy L buf nbytes) :
    ¬ ReadsWell L (fun _ => 1) transferNone driveNumber buf nbytes offset fun _ => 0 := by
  rintro ⟨r, hr, hgood⟩
  have htransfer := @transfer_spec L buf _ (Nat.mul_mod_left (nbytes / 2048) 2048) (by omega)
  unfold pread at hr
  rw [if_neg (not_not.mpr hblock)] at hr
  dsimp only at hr
  rw [if_neg (by omega)] at hr
  have hle := Nat.div_mul_le_self nbytes 2048
  generalize transfer L buf (nbytes / 2048 * 2048) = t at hr htransfer
  obtain ⟨rb, len⟩ := t
  obtain ⟨hshort, hlong, hplace⟩ := htransfer
  dsimp only at hr hshort hlong hplace
  obtain ⟨hone, -, -⟩ := @lbaPacketFor_blocks len offset rb hshort
  have hat := packetAt_preadRegisters L driveNumber
  have hpacket := congrArg Packet.blocks
    (@readPacket_lbaPacketFor L len offset (fun _ => 0) rb hshort hoff)
  have hlength : (lbaPacketFor rb len offset).bytes.length = 16 := by
    simp [Packet.bytes, length_le]
  have houtside : Buffer.store (fun _ => 0) L.lbaPacket (lbaPacketFor rb len offset).bytes rb =
      0 := by
    have := L.apart
    obtain ⟨hnear, -⟩ := hapart
    exact store_outside _ (by omega)
  generalize Buffer.store (fun _ => (0 : UInt8)) L.lbaPacket (lbaPacketFor rb len offset).bytes =
    mem₀ at hr hpacket houtside
  -- the count that `pread` reads back is the one it asked for
  have hcount : read16 (transferNone 0 mem₀ (preadRegisters L driveNumber)).1 (L.lbaPacket + 2) =
      (lbaPacketFor rb len offset).blocks := by
    rw [← hpacket]
    simp only [readPacket, read16]
    rw [transferNone_outside (by omega), transferNone_outside (by omega)]
  have hcarry : (transferNone 0 mem₀ (preadRegisters L driveNumber)).2.carry = false := by
    simp [transferNone, Registers.carry]
  rw [hcount, hcarry, if_neg (by simp only [Bool.false_eq_true, false_or]; omega)] at hr
  cases hr
  have hfilled := hgood.filled rfl 0 (by dsimp only; omega)
  dsimp only at hfilled
  have hdata : (transferNone 0 mem₀ (preadRegisters L driveNumber)).1 rb = 0 :=
    transferNone_zero houtside
  split_ifs at hfilled with hsame
  · rw [Nat.add_zero, ← hsame, hdata] at hfilled
    exact absurd hfilled (by decide)
  · rw [Buffer.memcpy, if_pos (by omega), Nat.add_zero, Nat.sub_self, Nat.add_zero, hdata] at hfilled
    exact absurd hfilled (by decide)

end Misaligned

/-- On every honest firmware `pread` keeps its promises exactly if no call is made or
the packet starts a paragraph. -/
theorem pread_readsWell_iff (L : Layout) (driveNumber : UInt8) (buf nbytes : ℕ) (offset : UInt64)
    (hapart : ApartBy L buf nbytes) :
    (∀ disk bios mem, Honest disk bios →
      ReadsWell L disk bios driveNumber buf nbytes offset.toNat mem) ↔
    offset.toNat % 2048 ≠ 0 ∨ nbytes < 2048 ∨ L.lbaPacket % 16 = 0 := by
  have hoff := offset.toNat_lt
  constructor
  · intro h
    by_contra hnot
    simp only [not_or, not_not, not_lt, ne_eq] at hnot
    obtain ⟨hblock, hlen, halign⟩ := hnot
    by_cases hone : L.lbaPacket % 16 = 1
    · exact not_readsWell_one hone hblock hlen
        (h (fun _ => 1) transferNone (fun _ => 0) (honest_transferNone _))
    · exact not_readsWell_below (by omega) hblock hoff hlen hapart
        (h (fun _ => 1) transferNone (fun _ => 0) (honest_transferNone _))
  · intro h disk bios mem hb
    by_cases halign : L.lbaPacket % 16 = 0
    · exact readsWell_of_aligned hb halign hoff hapart
    -- without a call the reply is there at once
    by_cases hblock : offset.toNat % 2048 = 0
    · have hz : nbytes / 2048 * 2048 = 0 := by omega
      refine ⟨⟨.ok, 0, mem, []⟩, ?_, ?_⟩
      · rw [pread, if_neg (not_not.mpr hblock)]
        dsimp only
        rw [if_pos hz]
      · exact good_nothing
    · refine ⟨⟨.einval, 0, mem, []⟩, ?_, ?_⟩
      · rw [pread, if_pos hblock]
      · exact good_failed (by decide) (Nat.zero_le _) (by simp)

/-- Two sectors into a buffer above 1 MiB. -/
theorem aligned_readsWell :
    ApartBy alignedLayout 0x200000 4096 ∧
      ReadsWell alignedLayout (fun i => UInt8.ofNat (i / 2048))
        (transferAll fun i => UInt8.ofNat (i / 2048)) 0xE0 0x200000 4096 0x8000 fun _ => 0 :=
  have hapart : ApartBy alignedLayout 0x200000 4096 := by
    unfold ApartBy
    decide
  ⟨hapart, (pread_readsWell_iff alignedLayout 0xE0 0x200000 4096 0x8000 hapart).mpr
    (.inr (.inr (by decide))) _ _ _ (honest_transferAll _)⟩

/-- A packet four bytes into a paragraph. -/
def crookedLayout : Layout where
  lbaPacket := 0x12344
  scratchBuffer := 0x13000
  packet_low := by decide
  scratch_low := alignedLayout.scratch_low
  apart := by decide

/-- Firmware that found no work in the paragraph below is taken to have read a sector. -/
theorem crooked_not_readsWell :
    Honest (fun _ => 1) transferNone ∧
      ¬ ReadsWell crookedLayout (fun _ => 1) transferNone 0xE0 0x200000 2048 0x8000 fun _ => 0 :=
  ⟨honest_transferNone _, not_readsWell_below (by decide) (by decide) (by decide) le_rfl
    (by unfold ApartBy; decide)⟩

end Gandr.Bios.Cdrom
