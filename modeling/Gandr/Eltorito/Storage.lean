import Gandr.Lib.Buffer
import Gandr.Lib.Word

/-! Reads from the boot disk: `int13_ext_read`, `storage_read` and `file_read` of
`bal/platform/bios/stage1/eltorito/storage.S`. The firmware is a parameter; `mem` is
memory without the stack and the packet of this code. -/

namespace Gandr.Eltorito

abbrev Memory := Buffer UInt8

/-- The fields of `lba_packet` behind its size. -/
structure LbaPacket where
  blocks : ℕ
  bufferOff : ℕ
  bufferSeg : ℕ
  lbaLow : ℕ
  lbaHigh : ℕ

def LbaPacket.address (p : LbaPacket) : ℕ := p.bufferSeg * 2^4 + p.bufferOff

def LbaPacket.lba (p : LbaPacket) : ℕ := p.lbaLow + 2^32 * p.lbaHigh

/-- What a call of int 0x13 leaves: flags, `ah`, the block count in the packet, memory. -/
structure Int13Reply where
  carry : Bool
  ah : UInt8
  blocks : ℕ
  mem : Memory

def Int13Reply.failed (r : Int13Reply) : Bool := r.carry || r.ah != 0

/-- The firmware's answer to the call of the given number. -/
abbrev Int13 := ℕ → Memory → LbaPacket → Int13Reply

def int13ExtRead (bios : Int13) (call cx edi ebx : ℕ) (mem : Memory) : Int13Reply :=
  bios call mem ⟨cx, edi % 2^4, edi / 2^4 % 2^16, ebx, 0⟩

inductive Outcome where
  | aborted (ah : UInt8)
  | returned (mem : Memory)

/-- The two loops of `storage_read`. -/
inductive Phase where
  | multiple
  | single

/-- The number of blocks asked for. -/
def Phase.request : Phase → ℕ → ℕ
  | .multiple, remaining => if remaining ≤ 0x7F then remaining else 0x7F
  | .single, _ => 1

/-- The loops of `storage_read` for at most `fuel` calls; `remaining` is on the stack. -/
def storageLoop (bios : Int13) :
    (fuel : ℕ) → Phase → (call remaining ebx edi : ℕ) → Memory → Option Outcome
  | 0, _, _, _, _, _, _ => none
  | fuel + 1, phase, call, remaining, ebx, edi, mem =>
    let r := int13ExtRead bios call (phase.request remaining) edi ebx mem
    if r.failed then
      match phase with
      | .multiple => storageLoop bios fuel .single (call + 1) remaining ebx edi r.mem
      | .single => some (.aborted r.ah)
    else
      let remaining := Word.sub 32 remaining r.blocks
      if remaining ≠ 0 then
        storageLoop bios fuel phase (call + 1) remaining (Word.add 32 ebx r.blocks)
          (Word.add 32 edi (Word.mul 32 r.blocks 2048)) r.mem
      else some (.returned r.mem)

def storageRead (bios : Int13) (fuel ecx ebx edi : ℕ) (mem : Memory) : Option Outcome :=
  storageLoop bios fuel .multiple 0 ecx ebx edi mem

/-- The fields of a directory record that `file_read` uses. -/
structure DirectoryRecord where
  xarLength : UInt8
  lba : UInt32
  dataLength : UInt32

/-- The number of blocks that `file_read` asks for. -/
def DirectoryRecord.blocks (rec : DirectoryRecord) : ℕ :=
  Word.add 32 rec.dataLength.toNat 0x7FF / 2^11

def fileRead (bios : Int13) (fuel : ℕ) (rec : DirectoryRecord) (edi : ℕ) (mem : Memory) :
    Option Outcome :=
  storageRead bios fuel rec.blocks (Word.add 32 rec.xarLength.toNat rec.lba.toNat) edi mem

/-- The documented behaviour of int 0x13, function 0x42: a call that fails has changed
nothing but the range asked for; one that succeeds has transferred some of the blocks,
and none only if none were asked for. -/
structure Honest (disk : Buffer UInt8) (bios : Int13) : Prop where
  fails : ∀ call mem p, (bios call mem p).failed = true →
    ∀ x, x < p.address ∨ p.address + 2048 * p.blocks ≤ x → (bios call mem p).mem x = mem x
  counts : ∀ call mem p, (bios call mem p).failed = false →
    (bios call mem p).blocks ≤ p.blocks ∧ ((bios call mem p).blocks = 0 → p.blocks = 0)
  transfers : ∀ call mem p, (bios call mem p).failed = false →
    (bios call mem p).mem =
      mem.memcpy p.address disk (2048 * p.lba) (2048 * (bios call mem p).blocks)

/-- The first `t` of `n` blocks from `lba` on are at `dest`, and nothing but the place of
the `n` blocks has changed. -/
structure Loaded (disk : Buffer UInt8) (n lba dest : ℕ) (mem₀ : Memory) (t : ℕ)
    (mem : Memory) : Prop where
  blocks : ∀ i < 2048 * t, mem (dest + i) = disk (2048 * lba + i)
  outside : ∀ x, x < dest ∨ dest + 2048 * n ≤ x → mem x = mem₀ x

/-- On every disk and honest firmware `storage_read` ends: the boot is aborted or the
blocks are loaded. -/
def ReadsBlocks (n lba dest : ℕ) : Prop :=
  ∀ disk bios mem, Honest disk bios → ∃ fuel o, storageRead bios fuel n lba dest mem = some o ∧
    match o with
    | .aborted _ => True
    | .returned mem' => Loaded disk n lba dest mem n mem'

section Loop

variable {disk : Buffer UInt8} {bios : Int13} {phase : Phase} {mem mem₀ : Memory}
  {n lba dest t call : ℕ}

theorem request_le {remaining : ℕ} (h : 0 < remaining) :
    0 < phase.request remaining ∧ phase.request remaining ≤ remaining := by
  cases phase with
  | multiple =>
    simp only [Phase.request]
    split_ifs <;> omega
  | single => exact ⟨Nat.one_pos, h⟩

/-- The packet names the destination, below 1 MiB. -/
theorem packet_address {cx edi ebx : ℕ} (h : edi < 2^20) :
    LbaPacket.address ⟨cx, edi % 2^4, edi / 2^4 % 2^16, ebx, 0⟩ = edi := by
  simp only [LbaPacket.address]
  omega

/-- A call that fails keeps what was loaded. -/
theorem Loaded.fail (hb : Honest disk bios) (hp : Loaded disk n lba dest mem₀ t mem)
    (ht : t < n) (hroom : dest + 2048 * n ≤ 2^20) {ebx : ℕ}
    (hf : (int13ExtRead bios call (phase.request (n - t)) (dest + 2048 * t) ebx mem).failed =
      true) :
    Loaded disk n lba dest mem₀ t
      (int13ExtRead bios call (phase.request (n - t)) (dest + 2048 * t) ebx mem).mem := by
  have hkeep := hb.fails call mem _ hf
  rw [packet_address (by omega)] at hkeep
  obtain ⟨-, hle⟩ := @request_le phase (n - t) (by omega)
  dsimp only at hkeep
  constructor
  · intro i hi
    refine (hkeep _ (.inl (by omega))).trans (hp.blocks i hi)
  · intro x hx
    refine (hkeep _ ?_).trans (hp.outside x hx)
    omega

/-- A call that succeeds loads more. -/
theorem Loaded.ok (hb : Honest disk bios) (hp : Loaded disk n lba dest mem₀ t mem)
    (ht : t < n) (hroom : dest + 2048 * n ≤ 2^20)
    (hf : (int13ExtRead bios call (phase.request (n - t)) (dest + 2048 * t) (lba + t) mem).failed =
      false) :
    let r := int13ExtRead bios call (phase.request (n - t)) (dest + 2048 * t) (lba + t) mem
    0 < r.blocks ∧ t + r.blocks ≤ n ∧ Loaded disk n lba dest mem₀ (t + r.blocks) r.mem := by
  obtain ⟨hpos, hle⟩ := @request_le phase (n - t) (by omega)
  obtain ⟨hcount, hzero⟩ := hb.counts call mem _ hf
  have hmem := hb.transfers call mem _ hf
  rw [packet_address (by omega)] at hmem
  change _ = mem.memcpy (dest + 2048 * t) disk (2048 * (lba + t + 2^32 * 0)) _ at hmem
  rw [Nat.mul_zero, Nat.add_zero] at hmem
  intro r
  have hcount : r.blocks ≤ phase.request (n - t) := hcount
  have hzero : r.blocks = 0 → phase.request (n - t) = 0 := hzero
  have hmem : r.mem = mem.memcpy (dest + 2048 * t) disk (2048 * (lba + t)) (2048 * r.blocks) := hmem
  refine ⟨by omega, by omega, ?_, ?_⟩
  · intro i hi
    rw [hmem, Buffer.memcpy]
    by_cases hold : i < 2048 * t
    · rw [if_neg (by omega)]
      exact hp.blocks i hold
    · rw [if_pos (by omega)]
      congr 1
      omega
  · intro x hx
    rw [hmem, Buffer.memcpy, if_neg (by omega)]
    exact hp.outside x hx

/-- One call of the loops. -/
theorem storageLoop_succ (bios : Int13) (fuel : ℕ) (phase : Phase) (call remaining ebx edi : ℕ)
    (mem : Memory) :
    storageLoop bios (fuel + 1) phase call remaining ebx edi mem =
      let r := int13ExtRead bios call (phase.request remaining) edi ebx mem
      if r.failed then
        match phase with
        | .multiple => storageLoop bios fuel .single (call + 1) remaining ebx edi r.mem
        | .single => some (.aborted r.ah)
      else
        if Word.sub 32 remaining r.blocks ≠ 0 then
          storageLoop bios fuel phase (call + 1) (Word.sub 32 remaining r.blocks)
            (Word.add 32 ebx r.blocks) (Word.add 32 edi (Word.mul 32 r.blocks 2048)) r.mem
        else some (.returned r.mem) := by
  cases phase <;> rfl

section Steps

variable {fuel remaining ebx edi : ℕ} {r : Int13Reply}

theorem storageLoop_failed (hr : int13ExtRead bios call (Phase.multiple.request remaining) edi ebx
    mem = r) (hf : r.failed = true) :
    storageLoop bios (fuel + 1) .multiple call remaining ebx edi mem =
      storageLoop bios fuel .single (call + 1) remaining ebx edi r.mem := by
  rw [storageLoop_succ]
  simp only [hr, hf, if_true]

theorem storageLoop_aborted (hr : int13ExtRead bios call 1 edi ebx mem = r)
    (hf : r.failed = true) :
    storageLoop bios (fuel + 1) .single call remaining ebx edi mem = some (.aborted r.ah) := by
  rw [storageLoop_succ]
  simp only [Phase.request, hr, hf, if_true]

theorem storageLoop_more (hr : int13ExtRead bios call (phase.request remaining) edi ebx mem = r)
    (hf : r.failed = false) (hleft : Word.sub 32 remaining r.blocks ≠ 0) :
    storageLoop bios (fuel + 1) phase call remaining ebx edi mem =
      storageLoop bios fuel phase (call + 1) (Word.sub 32 remaining r.blocks)
        (Word.add 32 ebx r.blocks) (Word.add 32 edi (Word.mul 32 r.blocks 2048)) r.mem := by
  rw [storageLoop_succ]
  simp only [hr, hf, Bool.false_eq_true, if_false]
  rw [if_pos hleft]

theorem storageLoop_last (hr : int13ExtRead bios call (phase.request remaining) edi ebx mem = r)
    (hf : r.failed = false) (hleft : Word.sub 32 remaining r.blocks = 0) :
    storageLoop bios (fuel + 1) phase call remaining ebx edi mem = some (.returned r.mem) := by
  rw [storageLoop_succ]
  simp only [hr, hf, Bool.false_eq_true, if_false]
  rw [if_neg (not_not.mpr hleft)]

end Steps

/-- The loops end with an abort or with everything loaded. -/
theorem storageLoop_ends (hb : Honest disk bios) (hroom : dest + 2048 * n ≤ 2^20)
    (hlba : lba + n ≤ 2^32) {fuel : ℕ} (hp : Loaded disk n lba dest mem₀ t mem) (ht : t < n)
    (hfuel : n - t + (match phase with | .multiple => 1 | .single => 0) ≤ fuel) :
    ∃ o, storageLoop bios fuel phase call (n - t) (lba + t) (dest + 2048 * t) mem = some o ∧
      match o with
      | .aborted _ => True
      | .returned mem' => Loaded disk n lba dest mem₀ n mem' := by
  induction fuel generalizing phase call t mem with
  | zero => cases phase <;> dsimp only at hfuel <;> omega
  | succ fuel ih =>
    have hfail := @Loaded.fail disk bios phase mem mem₀ n lba dest t call hb hp ht hroom (lba + t)
    have hok := @Loaded.ok disk bios phase mem mem₀ n lba dest t call hb hp ht hroom
    generalize hr : int13ExtRead bios call (phase.request (n - t)) (dest + 2048 * t) (lba + t)
      mem = r at hfail hok
    cases hf : r.failed with
    | true =>
      cases phase with
      | multiple =>
        rw [storageLoop_failed hr hf]
        exact ih (hfail hf) ht (by dsimp only at hfuel ⊢; omega)
      | single =>
        rw [storageLoop_aborted hr hf]
        exact ⟨_, rfl, trivial⟩
    | false =>
      obtain ⟨hpos, hle, hload⟩ := hok hf
      have hleft : Word.sub 32 (n - t) r.blocks = n - (t + r.blocks) := by
        rw [Word.sub_of_le (by omega) (by omega)]
        omega
      by_cases hdone : n - (t + r.blocks) = 0
      · have hall : t + r.blocks = n := by omega
        rw [storageLoop_last hr hf (hleft.trans hdone)]
        rw [hall] at hload
        exact ⟨_, rfl, hload⟩
      · have hebx : Word.add 32 (lba + t) r.blocks = lba + (t + r.blocks) := by
          rw [Word.add_of_lt (by omega)]
          omega
        have hedi : Word.add 32 (dest + 2048 * t) (Word.mul 32 r.blocks 2048) =
            dest + 2048 * (t + r.blocks) := by
          rw [Word.mul_of_lt (by omega), Word.add_of_lt (by omega)]
          omega
        rw [storageLoop_more hr hf (by rwa [hleft]), hleft, hebx, hedi]
        refine ih hload (by omega) ?_
        cases phase <;> dsimp only at hfuel ⊢ <;> omega

theorem readsBlocks_of_pos (hpos : 0 < n) (hroom : dest + 2048 * n ≤ 2^20)
    (hlba : lba + n ≤ 2^32) : ReadsBlocks n lba dest := by
  intro disk bios mem hb
  refine ⟨n + 1, ?_⟩
  have hstart : Loaded disk n lba dest mem 0 mem := ⟨nofun, fun _ _ => rfl⟩
  exact storageLoop_ends hb hroom hlba hstart hpos le_rfl

/-- More fuel does not change a finished run. -/
theorem storageLoop_mono {fuel remaining ebx edi : ℕ} {o : Outcome}
    (h : storageLoop bios fuel phase call remaining ebx edi mem = some o) (more : ℕ) :
    storageLoop bios (fuel + more) phase call remaining ebx edi mem = some o := by
  induction fuel generalizing phase call remaining ebx edi mem with
  | zero => cases h
  | succ fuel ih =>
    rw [Nat.succ_add]
    rw [storageLoop_succ] at h ⊢
    dsimp only at h ⊢
    split_ifs at h ⊢
    · cases phase with
      | multiple => exact ih h
      | single => exact h
    · exact ih h
    · exact h

end Loop

/-- Firmware that refuses its first call and serves every other one. -/
def refusesFirst (disk : Buffer UInt8) : Int13 := fun call mem p =>
  if call = 0 then ⟨true, 1, 0, mem⟩
  else ⟨false, 0, p.blocks, mem.memcpy p.address disk (2048 * p.lba) (2048 * p.blocks)⟩

theorem honest_refusesFirst (disk : Buffer UInt8) : Honest disk (refusesFirst disk) where
  fails call mem p h x _ := by
    unfold refusesFirst at h ⊢
    split_ifs at h ⊢
    · rfl
    · cases h
  counts call mem p h := by
    unfold refusesFirst at h ⊢
    split_ifs at h ⊢
    · cases h
    · exact ⟨le_rfl, id⟩
  transfers call mem p h := by
    unfold refusesFirst at h ⊢
    split_ifs at h ⊢
    · cases h
    · rfl

/-- Firmware that transfers one block at a time. -/
def oneByOne (disk : Buffer UInt8) : Int13 := fun _ mem p =>
  ⟨false, 0, min 1 p.blocks, mem.memcpy p.address disk (2048 * p.lba) (2048 * min 1 p.blocks)⟩

theorem honest_oneByOne (disk : Buffer UInt8) : Honest disk (oneByOne disk) where
  fails call mem p h := by cases h
  counts call mem p _ := by
    refine ⟨min_le_right _ _, ?_⟩
    simp only [oneByOne]
    omega
  transfers call mem p _ := rfl

section Failures

variable {n lba dest call : ℕ} {mem : Memory}

/-- A block of ones: what was one stays one, and the destination becomes one. -/
theorem refusesFirst_serves {edi ebx x : ℕ} (hcall : call ≠ 0)
    (hx : mem x = 1 ∨ x = edi ∧ edi < 2^20) :
    ∃ r, int13ExtRead (refusesFirst fun _ => 1) call 1 edi ebx mem = r ∧ r.failed = false ∧
      r.blocks = 1 ∧ r.mem x = 1 := by
  refine ⟨_, rfl, ?_⟩
  rw [int13ExtRead, refusesFirst, if_neg hcall]
  refine ⟨rfl, rfl, ?_⟩
  dsimp only
  rw [Buffer.memcpy]
  split_ifs with hin
  · rfl
  · rcases hx with hx | ⟨rfl, hlow⟩
    · exact hx
    · rw [packet_address hlow] at hin
      omega

theorem refusesFirst_keeps {fuel remaining ebx edi x : ℕ} {o : Outcome} (hcall : call ≠ 0)
    (hx : mem x = 1)
    (h : storageLoop (refusesFirst fun _ => 1) fuel .single call remaining ebx edi mem = some o) :
    ∃ mem', o = .returned mem' ∧ mem' x = 1 := by
  induction fuel generalizing call remaining ebx edi mem with
  | zero => cases h
  | succ fuel ih =>
    obtain ⟨r, hr, hf, -, hone⟩ := @refusesFirst_serves call mem edi ebx x hcall (.inl hx)
    by_cases hleft : Word.sub 32 remaining r.blocks = 0
    · rw [storageLoop_last hr hf hleft] at h
      cases h
      exact ⟨_, rfl, hone⟩
    · rw [storageLoop_more hr hf hleft] at h
      exact ih (Nat.succ_ne_zero call) hone h

/-- Without blocks to read, a refused call is followed by reads of single blocks. -/
theorem not_readsBlocks_zero (hdest : dest < 2^20) : ¬ ReadsBlocks 0 lba dest := by
  intro h
  obtain ⟨fuel, o, hrun, hend⟩ := h (fun _ => 1) (refusesFirst fun _ => 1) (fun _ => 0)
    (honest_refusesFirst _)
  have hlong := storageLoop_mono hrun 2
  obtain ⟨r, hr, hf, hblocks, hone⟩ := @refusesFirst_serves 1 (fun _ => 0) dest lba dest
    Nat.one_ne_zero (.inr ⟨rfl, hdest⟩)
  have hleft : Word.sub 32 0 r.blocks ≠ 0 := by
    rw [hblocks]
    decide
  rw [storageLoop_failed (r := ⟨true, 1, 0, fun _ => 0⟩) rfl rfl, storageLoop_more hr hf hleft]
    at hlong
  obtain ⟨mem', rfl, hmem'⟩ := refusesFirst_keeps (Nat.succ_ne_zero 1) hone hlong
  have hzero := hend.outside dest (.inr (by omega))
  rw [hmem'] at hzero
  exact absurd hzero (by decide)

/-- Block by block, the number of the block wraps. -/
theorem oneByOne_wraps {disk : Buffer UInt8} {t fuel : ℕ} {o : Outcome} (ht : t < n)
    (hroom : dest + 2048 * n ≤ 2^20)
    (hold : ∀ j < t, mem (dest + 2048 * j) = disk (2048 * ((lba + j) % 2^32)))
    (h : storageLoop (oneByOne disk) fuel .multiple call (n - t) ((lba + t) % 2^32)
      (dest + 2048 * t) mem = some o) :
    ∃ mem', o = .returned mem' ∧
      ∀ j < n, mem' (dest + 2048 * j) = disk (2048 * ((lba + j) % 2^32)) := by
  induction fuel generalizing call t mem with
  | zero => cases h
  | succ fuel ih =>
    obtain ⟨r, hr, hf, hblocks, hmem⟩ : ∃ r, int13ExtRead (oneByOne disk) call
        (Phase.multiple.request (n - t)) (dest + 2048 * t) ((lba + t) % 2^32) mem = r ∧
        r.failed = false ∧ r.blocks = 1 ∧
        r.mem = mem.memcpy (dest + 2048 * t) disk (2048 * ((lba + t) % 2^32)) 2048 := by
      obtain ⟨hpos, -⟩ := @request_le .multiple (n - t) (by omega)
      have hone : min 1 (Phase.multiple.request (n - t)) = 1 := by omega
      refine ⟨_, rfl, rfl, ?_, ?_⟩
      · simp only [int13ExtRead, oneByOne, hone]
      · simp only [int13ExtRead, oneByOne, hone]
        rw [packet_address (by omega)]
        simp [LbaPacket.lba]
    have hnew : ∀ j < t + 1, r.mem (dest + 2048 * j) = disk (2048 * ((lba + j) % 2^32)) := by
      intro j hj
      rw [hmem, Buffer.memcpy]
      by_cases hjt : j = t
      · rw [hjt, if_pos (by omega), Nat.sub_self, Nat.add_zero]
      · rw [if_neg (by omega)]
        exact hold j (by omega)
    have hleft : Word.sub 32 (n - t) r.blocks = n - (t + 1) := by
      rw [hblocks, Word.sub_of_le (by omega) (by omega)]
      omega
    by_cases hdone : n - (t + 1) = 0
    · rw [storageLoop_last hr hf (hleft.trans hdone)] at h
      cases h
      exact ⟨_, rfl, fun j hj => hnew j (by omega)⟩
    · have hebx : Word.add 32 ((lba + t) % 2^32) r.blocks = (lba + (t + 1)) % 2^32 := by
        rw [hblocks, Word.add, Nat.mod_add_mod]
        rfl
      have hedi : Word.add 32 (dest + 2048 * t) (Word.mul 32 r.blocks 2048) =
          dest + 2048 * (t + 1) := by
        rw [hblocks, Word.mul_of_lt (by decide), Word.add_of_lt (by omega)]
        omega
      rw [storageLoop_more hr hf (by rwa [hleft]), hleft, hebx, hedi] at h
      exact ih (by omega) hnew h

/-- A read beyond the last block that 32 bits can name gets the first one. -/
theorem not_readsBlocks_wrap (hlba : lba < 2^32) (hwrap : 2^32 < lba + n)
    (hroom : dest + 2048 * n ≤ 2^20) : ¬ ReadsBlocks n lba dest := by
  intro h
  let disk : Buffer UInt8 := fun x => if x = 0 then 0 else 1
  obtain ⟨fuel, o, hrun, hend⟩ := h disk (oneByOne disk) (fun _ => 0) (honest_oneByOne _)
  have hstart : storageLoop (oneByOne disk) fuel .multiple 0 (n - 0) ((lba + 0) % 2^32)
      (dest + 2048 * 0) (fun _ => 0) = some o := by
    rw [Nat.add_zero, Nat.mod_eq_of_lt hlba]
    exact hrun
  obtain ⟨mem', rfl, hmem⟩ := oneByOne_wraps (by omega) hroom
    (fun j hj => absurd hj (Nat.not_lt_zero j)) hstart
  have hread := hmem (2^32 - lba) (by omega)
  rw [hend.blocks (2048 * (2^32 - lba)) (by omega), Nat.add_sub_cancel' hlba.le, Nat.mod_self,
    ← Nat.mul_add, Nat.add_sub_cancel' hlba.le] at hread
  exact absurd hread (by decide)

end Failures

end Gandr.Eltorito
