import Gandr.Pxe.Storage

/-! `storage_init`: through which of the two structures the firmware is called from
then on; and what holds of `file_read` with any firmware. -/

namespace Gandr.Pxe

open Bios.Cdrom (Memory le read16 read32)
open Bios.Bytes
open Stage1 (Machine hexValue outputString)

section Checksum

variable (mem : Memory) (es bx : UInt16)

/-- The sum of `n` bytes of a structure. The offset stays in the segment. -/
def sumBytes (n : ℕ) : UInt8 :=
  ((List.range n).map fun i => mem (linear es (bx + UInt16.ofNat i))).foldr (· + ·) 0

theorem checksum_eq (n : ℕ) (al : UInt8) :
    checksum mem es n bx al = al + sumBytes mem es bx n := by
  induction n generalizing bx al with
  | zero => simp [checksum, sumBytes]
  | succ n ih =>
    have hnext : ∀ i : ℕ, bx + 1 + UInt16.ofNat i = bx + UInt16.ofNat (i + 1) := by
      intro i
      rw [UInt16.ofNat_add, UInt16.add_comm (UInt16.ofNat i), ← UInt16.add_assoc]
      rfl
    have hzero : bx + UInt16.ofNat 0 = bx := by simp
    rw [checksum, ih, sumBytes, sumBytes, List.range_succ_eq_map, List.map_cons, List.foldr_cons,
      List.map_map, hzero, UInt8.add_assoc]
    simp only [hnext, Function.comp_def]

end Checksum

/-- A PXENV+ structure at `es:bx`: its name, and the sum over the length it has at
offset 8. -/
structure IsPxenv (mem : Memory) (es bx : UInt16) : Prop where
  name : read32 mem (linear es bx) = 0x4E455850 ∧ read16 mem (linear es (bx + 4)) = 0x2B56
  sum : sumBytes mem es bx (rounds (mem (linear es (bx + 8))).toNat) = 0

/-- A `!PXE` structure at `es:bx`, with its length at offset 4. -/
structure IsPxe (mem : Memory) (es bx : UInt16) : Prop where
  name : read32 mem (linear es bx) = 0x45585021
  sum : sumBytes mem es bx (rounds (mem (linear es (bx + 4))).toNat) = 0

instance (mem : Memory) (es bx : UInt16) : Decidable (IsPxenv mem es bx) :=
  decidable_of_iff (_ ∧ _) ⟨fun h => ⟨h.1, h.2⟩, fun h => ⟨h.name, h.sum⟩⟩

instance (mem : Memory) (es bx : UInt16) : Decidable (IsPxe mem es bx) :=
  decidable_of_iff (_ ∧ _) ⟨fun h => ⟨h.1, h.2⟩, fun h => ⟨h.name, h.sum⟩⟩

section Init

variable {σ : Type} {I : Image} {api : Api σ} {es bx : UInt16} {m m' : Machine σ}

theorem newVersion_eq (mem : Memory) : newVersion I es bx mem =
    if IsPxe mem es bx then
      let mem := mem.store I.apiAddr (le 4 (read32 mem (linear es (bx + 0x10))))
      some (mem.store I.flags [mem I.flags ||| 1])
    else none := by
  have hsum : structureSum mem es bx 4 =
      sumBytes mem es bx (rounds (mem (linear es (bx + 4))).toNat) := by
    rw [structureSum, checksum_eq, UInt8.zero_add]
  rw [newVersion, hsum]
  by_cases hname : read32 mem (linear es bx) = 0x45585021
  · rw [if_neg (by simpa using hname)]
    by_cases h : sumBytes mem es bx (rounds (mem (linear es (bx + 4))).toNat) = 0
    · rw [if_neg (by simpa using h), if_pos ⟨hname, h⟩]
    · rw [if_pos h, if_neg fun hp => h hp.sum]
  · rw [if_pos hname, if_neg fun hp => hname hp.name]

/-- The memory with the entry point: that of the `!PXE` structure at `cs:offset` if
there is one. -/
def withEntry (I : Image) (es bx cs offset : UInt16) (mem : Memory) : Memory :=
  if 0x0201 ≤ read16 mem (linear es (bx + 6)) ∧ IsPxe mem cs offset then
    let mem := mem.store I.apiAddr (le 4 (read32 mem (linear cs (offset + 0x10))))
    mem.store I.flags [mem I.flags ||| 1]
  else pxenv I es bx mem

theorem storageInit_eq (es bx ss sp : UInt16) (m : Machine σ) : storageInit I api es bx ss sp m =
    if IsPxenv m.mem es bx then
      getCachedInfo I api { m with
        mem := withEntry I es bx (UInt16.ofNat (read16 m.mem (linear ss (sp + 4))))
          (UInt16.ofNat (read16 m.mem (linear ss (sp + 4 + 2)))) m.mem }
    else .error noPxe := by
  have hsum : structureSum m.mem es bx 8 =
      sumBytes m.mem es bx (rounds (m.mem (linear es (bx + 8))).toNat) := by
    rw [structureSum, checksum_eq, UInt8.zero_add]
  rw [storageInit, hsum]
  by_cases h₁ : read32 m.mem (linear es bx) = 0x4E455850
  · by_cases h₂ : read16 m.mem (linear es (bx + 4)) = 0x2B56
    · by_cases h₃ : sumBytes m.mem es bx (rounds (m.mem (linear es (bx + 8))).toNat) = 0
      · rw [if_neg (by simpa using h₁), if_neg (by simpa using h₂), if_neg (by simpa using h₃),
          if_pos (show IsPxenv m.mem es bx from ⟨⟨h₁, h₂⟩, h₃⟩), withEntry]
        dsimp only
        rw [newVersion_eq]
        by_cases hversion : 0x0201 ≤ read16 m.mem (linear es (bx + 6))
        · rw [if_pos hversion]
          by_cases hnew : IsPxe m.mem (UInt16.ofNat (read16 m.mem (linear ss (sp + 4))))
              (UInt16.ofNat (read16 m.mem (linear ss (sp + 4 + 2))))
          · rw [if_pos hnew, if_pos ⟨hversion, hnew⟩]
            rfl
          · rw [if_neg hnew, if_neg fun h => hnew h.2]
            rfl
        · rw [if_neg hversion, if_neg fun h => hversion h.1]
      · rw [if_neg (by simpa using h₁), if_neg (by simpa using h₂), if_pos h₃,
          if_neg fun h => h₃ h.sum]
    · rw [if_neg (by simpa using h₁), if_pos h₂, if_neg fun h => h₂ h.name.2]
  · rw [if_pos h₁, if_neg fun h => h₁ h.name.1]

theorem read32_withEntry {cs offset : UInt16} (mem : Memory) :
    read32 (withEntry I es bx cs offset mem) I.apiAddr =
      if 0x0201 ≤ read16 mem (linear es (bx + 6)) ∧ IsPxe mem cs offset then
        read32 mem (linear cs (offset + 0x10))
      else read32 mem (linear es (bx + 0x0A)) := by
  have hentry : ∀ a, read32 (mem.store I.apiAddr (le 4 (read32 mem a))) I.apiAddr = read32 mem a := by
    intro a
    have hread := @read32_append mem I.apiAddr 0 [] [] _ rfl (read32_lt mem a)
    rwa [List.append_nil] at hread
  rw [withEntry]
  split_ifs with h
  · refine (read32_congr fun i hi => Bios.Cdrom.store_outside _ (.inl ?_)).trans (hentry _)
    rw [Image.apiAddr, Image.flags]
    omega
  · rw [pxenv, hentry]

/-- The cached information is stored outside `.bss`. -/
theorem getCachedInfo_entry (h : getCachedInfo I api m = .ok m')
    (hapi : ∀ e (m : Machine σ), ∀ i < 4,
      (api e 0x71 I.cachedInfo m).2.mem (I.apiAddr + i) = m.mem (I.apiAddr + i)) :
    read32 m'.mem I.apiAddr = read32 m.mem I.apiAddr := by
  rw [getCachedInfo] at h
  split_ifs at h
  cases h
  have hle := I.cachedInfo_le
  have hcall : read32 (request I api 0x71 I.cachedInfo m).2.mem I.apiAddr =
      read32 m.mem I.apiAddr := read32_congr fun i hi => hapi _ m i hi
  rw [← hcall]
  refine read32_congr fun i hi => ?_
  dsimp only
  rw [Bios.Cdrom.store_outside _ ?_, Bios.Cdrom.store_outside _ ?_]
  all_goals
    rw [Bios.Cdrom.length_le, Image.apiAddr]
    omega

/-- A boot that is not from a network is aborted before the firmware is called. Else
the entry point is that of the PXENV+ structure, or of a `!PXE` structure that is in
the segment of the return address, at the offset that the pointer on the stack has;
the stack is that of `_start`, with the pointer above the far return address. -/
theorem storageInit_entry (m : Machine σ) (es bx ss sp : UInt16)
    (hapi : ∀ e (m : Machine σ), ∀ i < 4,
      (api e 0x71 I.cachedInfo m).2.mem (I.apiAddr + i) = m.mem (I.apiAddr + i)) :
    (¬ IsPxenv m.mem es bx → storageInit I api es bx ss (sp - 2) m = .error noPxe) ∧
      ∀ m', storageInit I api es bx ss (sp - 2) m = .ok m' → IsPxenv m.mem es bx ∧
        ∃ cs offset : UInt16, cs.toNat = read16 m.mem (linear ss (sp + 2)) ∧
          offset.toNat = read16 m.mem (linear ss (sp + 4)) ∧
          read32 m'.mem I.apiAddr =
            if 0x0201 ≤ read16 m.mem (linear es (bx + 6)) ∧ IsPxe m.mem cs offset then
              read32 m.mem (linear cs (offset + 0x10))
            else read32 m.mem (linear es (bx + 0x0A)) := by
  have hword : ∀ a, (UInt16.ofNat (read16 m.mem a)).toNat = read16 m.mem a := by
    intro a
    have h₀ := (m.mem a).toNat_lt
    have h₁ := (m.mem (a + 1)).toNat_lt
    rw [UInt16.toNat_ofNat', read16]
    omega
  have hbp : sp - 2 + 4 = sp + 2 := by
    rw [UInt16.sub_eq_add_neg, UInt16.add_assoc]
    rfl
  have hnext : sp + 2 + 2 = sp + 4 := by
    rw [UInt16.add_assoc]
    rfl
  have heq := @storageInit_eq σ I api es bx ss (sp - 2) m
  rw [hbp, hnext] at heq
  refine ⟨fun h => by rw [heq, if_neg h], fun m' h => ?_⟩
  by_cases hp : IsPxenv m.mem es bx
  · rw [heq, if_pos hp] at h
    refine ⟨hp, _, _, hword (linear ss (sp + 2)), hword (linear ss (sp + 4)), ?_⟩
    rw [getCachedInfo_entry h hapi]
    exact read32_withEntry m.mem
  · rw [heq, if_neg hp] at h
    cases h

/-- The firmware that agrees to everything. -/
def agreeing : Api Unit := fun _ _ _ m => (0, m)

def someImage : Image := ⟨0x1000, 0x1100, by decide, by decide⟩

/-- The name of the file at `0x1020`, a PXENV+ structure of version 2.1 at `9000:0`, a
`!PXE` structure at `9000:0100`, and the stack at `0:7000`, with `9000` as the segment
of the return address. -/
def networkMemory : Memory :=
  let mem : Memory := Buffer.store (fun _ => 0) 0x1020 (CString.ofString "gd_bal.")
  let mem := mem.store 0x90000
    (CString.ofString "PXENV+" ++ [0x01, 0x02, 0x10, 0x50, 0x00, 0x01, 0x00, 0xE0])
  let mem := mem.store 0x90100 (CString.ofString "!PXE" ++ [0x14, 0xFC, 0x00, 0x00, 0x00, 0x00, 0x00,
    0x00, 0x00, 0x00, 0x00, 0x00, 0x00, 0x02, 0x00, 0xE0])
  mem.store 0x7000 [0x00, 0x00, 0x00, 0x90, 0x00, 0x01, 0x00, 0x9A]

/-- The `!PXE` structure is used though the segment of its pointer is another one. -/
theorem storageInit_networkMemory : ∃ m', storageInit someImage agreeing 0x9000 0 0 (0x7000 - 2)
      ⟨(), networkMemory⟩ = .ok m' ∧ read32 m'.mem someImage.apiAddr = 0xE0000200 := by
  refine ⟨_, rfl, ?_⟩
  obtain ⟨-, cs, offset, hcs, hoffset, hentry⟩ :=
    (@storageInit_entry Unit someImage agreeing ⟨(), networkMemory⟩ 0x9000 0 0 0x7000
      fun _ _ _ _ => rfl).2 _ rfl
  have hcs' : cs = 0x9000 := UInt16.toNat_inj.mp hcs
  have hoffset' : offset = 0x0100 := UInt16.toNat_inj.mp hoffset
  rw [hentry, hcs', hoffset']
  decide

end Init

section Texts

/-- What is printed of a file in front of an error. -/
def fileText (file : Option CString) : CString :=
  (file.map fun name => CString.ofString "File " ++ outputString name ++ CString.ofString ": ").getD []

end Texts

section Calls

variable {σ : Type} {I : Image} (api : Api σ)

/-- The firmware with a count of its calls. -/
def counted : Api (σ × ℕ) := fun entry opcode params m =>
  let r := api entry opcode params ⟨m.firmware.1, m.mem⟩
  (r.1, ⟨(r.2.firmware, m.firmware.2 + 1), r.2.mem⟩)

theorem request_counted (opcode params : ℕ) (m : Machine (σ × ℕ)) :
    (request I (counted api) opcode params m).2.firmware.2 = m.firmware.2 + 1 := rfl

theorem readLoop_calls_le {ecx edi : ℕ} {m m' : Machine (σ × ℕ)}
    (h : readLoop I (counted api) ecx edi m = .ok m') :
    m'.firmware.2 ≤ m.firmware.2 + ecx / 512 + 1 := by
  induction ecx using Nat.strong_induction_on generalizing edi m with
  | _ ecx ih =>
    obtain ⟨r, hr⟩ : ∃ r, r = request I (counted api) 0x22 I.tftpRead
      { m with mem := readParams I edi m.mem } := ⟨_, rfl⟩
    have hcount : r.2.firmware.2 = m.firmware.2 + 1 := by
      rw [hr, request_counted]
    rw [readLoop, ← hr] at h
    dsimp only at h
    split_ifs at h with hax hshort hend
    · cases h
      omega
    · cases h
      omega
    · have hrest := ih _ (by omega) h
      omega

end Calls

end Gandr.Pxe
