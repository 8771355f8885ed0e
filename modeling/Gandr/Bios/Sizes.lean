import Gandr.Bios.Mmap

/-! The sizes of `mmap_init` without E820. A service reports counts of KiB or of
64 KiB; `try_e8x1`, `try_c7` and `get_extended_memory` turn them into bytes in 32
bits. What is reported is stated here over the natural numbers. -/

namespace Gandr.Bios

open Mmap

/-- A count that a service reports, and the bytes of one unit of it. -/
structure Amount where
  count : ℕ
  unit : ℕ

def Amount.bytes (a : Amount) : ℕ := a.count * a.unit

/-- The CX and DX pair, or AX and BX where CX is zero, of `w` bits each. -/
def e8x1Amounts (w : ℕ) (regs : Registers) : List Amount :=
  if regs.ecx.toNat % 2^w = 0 then
    [⟨regs.eax.toNat % 2^w, 1024⟩, ⟨regs.ebx.toNat % 2^w, 65536⟩]
  else
    [⟨regs.ecx.toNat % 2^w, 1024⟩, ⟨regs.edx.toNat % 2^w, 65536⟩]

def reportE8x1 (eax : UInt32) : Detection (List Amount) := do
  let regs ← biosIntCall 0x15 { eax }
  if regs.carry then pure []
  else pure (e8x1Amounts (if eax = 0xE801 then 16 else 32) regs)

def reportC7 : Detection (List Amount) := do
  let regs ← biosIntCall 0x15 { eax := 0xC0 }
  if regs.carry ∨ regs.eax &&& 0xFF00 ≠ 0 then pure []
  else do
    let feature ← load8 (linear regs.es regs.ebx + 6)
    if feature &&& ((1 : UInt8) <<< 4) = 0 then pure []
    else do
      let memory1m ← load32 (linear regs.ds regs.esi + 26)
      let memory16m ← load32 (linear regs.ds regs.esi + 30)
      pure [⟨memory1m.toNat, 1024⟩, ⟨memory16m.toNat, 1024⟩]

/-- CL and BX of DA88, AX of 88, DX and AX of 8A, or two bytes of the CMOS. -/
def reportExtended : Detection (List Amount) := do
  let regs ← biosIntCall 0x15 { eax := 0xDA88 }
  if ¬ regs.carry then
    pure [⟨regs.ecx.toNat % 2^8 * 2^16 + regs.ebx.toNat % 2^16, 1024⟩]
  else do
    let regs ← biosIntCall 0x15 { regs with eax := 0x8800 }
    if ¬ regs.carry ∧ regs.eax &&& 0xFF00 ≠ 0x8600 ∧ regs.eax &&& 0xFF00 ≠ 0x8000 then
      pure [⟨regs.eax.toNat % 2^16, 1024⟩]
    else do
      let regs ← biosIntCall 0x15 { regs with eax := 0x8A00 }
      if ¬ regs.carry then
        pure [⟨regs.edx.toNat % 2^16 * 2^16 + regs.eax.toNat % 2^16, 1024⟩]
      else do
        outb 0x70 0x30
        let low ← inb 0x71
        outb 0x70 0x31
        let high ← inb 0x71
        pure [⟨high.toNat * 2^8 + low.toNat, 1024⟩]

/-- The last resort of `mmap_init`. -/
def addExtendedMemory : Detection Unit := do
  let extended ← getExtendedMemory
  addEntry (conventionalEntry 0x100000 extended.toNat)

def Request.size : Request → Option ℕ
  | .addEntry e => some e.size
  | _ => none

/-- The sizes of the entries a run adds. -/
def addedSizes {α : Type} (fw : Firmware) (h : List Request) (p : Detection α) : List ℕ :=
  ((p.run fw h).map fun r => r.2.filterMap Request.size).getD []

def amounts (fw : Firmware) (h : List Request) (report : Detection (List Amount)) : List Amount :=
  ((report.run fw h).map Prod.fst).getD []

/-- The entries added have the reported sizes, which the size field can hold. -/
structure ExactSizes {α : Type} (fw : Firmware) (h : List Request) (p : Detection α)
    (report : Detection (List Amount)) : Prop where
  equal : addedSizes fw h p = (amounts fw h report).map Amount.bytes
  fits : ∀ a ∈ amounts fw h report, a.bytes < 2^64

/-- No amount reported reaches 4 GiB. -/
def Below4GiB (fw : Firmware) (h : List Request) (report : Detection (List Amount)) : Prop :=
  ∀ a ∈ amounts fw h report, a.bytes < 2^32

/-- The report, and then an entry for each amount, of its bytes in 32 bits. -/
def addPair : List Amount → Detection Bool
  | [low, high] => do
    addEntry (conventionalEntry 0x100000 (low.bytes % 2^32))
    addEntry (conventionalEntry 0x1000000 (high.bytes % 2^32))
    pure true
  | _ => pure false

def addOne : List Amount → Detection Unit
  | [a] => addEntry (conventionalEntry 0x100000 (a.bytes % 2^32))
  | _ => pure ()

section Words

theorem toNat_and_ffff (r : UInt32) : (r &&& 0xFFFF).toNat = r.toNat % 2^16 := by
  rw [UInt32.toNat_and]
  exact Nat.and_two_pow_sub_one_eq_mod r.toNat 16

theorem toNat_and_ff (r : UInt32) : (r &&& 0xFF).toNat = r.toNat % 2^8 := by
  rw [UInt32.toNat_and]
  exact Nat.and_two_pow_sub_one_eq_mod r.toNat 8

theorem toNat_and_all (r : UInt32) : (r &&& 0xFFFFFFFF).toNat = r.toNat % 2^32 := by
  rw [UInt32.toNat_and]
  exact Nat.and_two_pow_sub_one_eq_mod r.toNat 32

/-- Two halves that do not meet are added by `|`. -/
theorem toNat_shiftLeft_or {high low : UInt32} {k w : ℕ} (hk : k < 32)
    (hlow : low.toNat < 2^k) (hhigh : high.toNat < 2^w) (hw : w + k ≤ 32) :
    (high <<< UInt32.ofNat k ||| low).toNat = high.toNat * 2^k + low.toNat := by
  have hkm : (UInt32.ofNat k).toNat = k := by
    rw [UInt32.toNat_ofNat']
    exact Nat.mod_eq_of_lt (by omega)
  have hfit : high.toNat * 2^k < 2^32 := by
    calc high.toNat * 2^k < 2^w * 2^k := (Nat.mul_lt_mul_right (Nat.two_pow_pos k)).mpr hhigh
      _ = 2^(w + k) := (pow_add 2 w k).symm
      _ ≤ 2^32 := Nat.pow_le_pow_right (by decide) hw
  rw [UInt32.toNat_or, UInt32.toNat_shiftLeft, hkm, Nat.mod_eq_of_lt hk, Nat.shiftLeft_eq,
    Nat.mod_eq_of_lt hfit, Nat.mul_comm, Nat.two_pow_add_eq_or_of_lt hlow]

theorem toNat_mul_kib (r : UInt32) : (r * 1024).toNat = r.toNat * 1024 % 2^32 :=
  UInt32.toNat_mul r 1024

theorem toNat_mul_blocks (r : UInt32) : (r * 1024 * 64).toNat = r.toNat * 65536 % 2^32 := by
  rw [UInt32.toNat_mul, UInt32.toNat_mul]
  simp only [UInt32.reduceToNat]
  omega

end Words

section Factor

/-- The amounts in the words of the code, under a mask that keeps `w` bits. -/
theorem e8x1Amounts_eq {mask : UInt32} {w : ℕ}
    (hmask : ∀ r : UInt32, (r &&& mask).toNat = r.toNat % 2^w) (regs : Registers) :
    e8x1Amounts w regs =
      [⟨(if regs.ecx &&& mask = 0 then regs.eax &&& mask else regs.ecx &&& mask).toNat, 1024⟩,
        ⟨(if regs.ecx &&& mask = 0 then regs.ebx &&& mask else regs.edx &&& mask).toNat,
          65536⟩] := by
  unfold e8x1Amounts
  by_cases hzero : regs.ecx &&& mask = 0
  · have hcx : regs.ecx.toNat % 2^w = 0 := by rw [← hmask, hzero, UInt32.toNat_zero]
    rw [if_pos hcx, if_pos hzero, if_pos hzero, hmask, hmask]
  · have hcx : regs.ecx.toNat % 2^w ≠ 0 := by
      rw [← hmask]
      exact fun h => hzero (UInt32.toNat_inj.mp h)
    rw [if_neg hcx, if_neg hzero, if_neg hzero, hmask, hmask]

theorem tryE8x1_eq (eax : UInt32) : tryE8x1 eax = reportE8x1 eax >>= addPair := by
  have hmask (r : UInt32) : (r &&& if eax = 0xE801 then 0xFFFF else 0xFFFFFFFF).toNat =
      r.toNat % 2^(if eax = 0xE801 then 16 else 32) := by
    split_ifs
    · exact toNat_and_ffff r
    · exact toNat_and_all r
  unfold tryE8x1 reportE8x1
  simp only [Program.bind_bind]
  refine bind_congr fun regs => ?_
  by_cases hcarry : regs.carry = true
  · rw [if_pos hcarry, if_pos hcarry]
    rfl
  · rw [if_neg hcarry, if_neg hcarry, e8x1Amounts_eq hmask, toNat_mul_kib, toNat_mul_blocks]
    rfl

theorem tryC7_eq : tryC7 = reportC7 >>= addPair := by
  unfold tryC7 reportC7
  simp only [Program.bind_bind]
  refine bind_congr fun regs => ?_
  split_ifs
  · rfl
  · simp only [Program.bind_bind]
    refine bind_congr fun feature => ?_
    split_ifs
    · rfl
    · simp only [Program.bind_bind]
      rfl

/-- One amount of `count` KiB, added in 32 bits. -/
theorem addOne_kib {r : UInt32} {count : ℕ} (h : r.toNat = count) :
    (pure (r * 1024) >>= fun extended : UInt32 =>
        addEntry (conventionalEntry 0x100000 extended.toNat)) =
      (pure [⟨count, 1024⟩] >>= addOne : Detection Unit) := by
  subst h
  rfl

theorem addExtendedMemory_eq : addExtendedMemory = reportExtended >>= addOne := by
  have hff (r : UInt32) : (r &&& 0xFF).toNat < 2^8 := by
    rw [toNat_and_ff]
    exact Nat.mod_lt _ (by decide)
  have hffff (r : UInt32) : (r &&& 0xFFFF).toNat < 2^16 := by
    rw [toNat_and_ffff]
    exact Nat.mod_lt _ (by decide)
  unfold addExtendedMemory getExtendedMemory reportExtended
  simp only [Program.bind_bind]
  refine bind_congr fun regs => ?_
  by_cases hda88 : ¬ regs.carry
  · rw [if_pos hda88, if_pos hda88]
    refine addOne_kib ?_
    rw [← toNat_and_ff, ← toNat_and_ffff]
    exact toNat_shiftLeft_or (k := 16) (by decide) (hffff _) (hff _) (by decide)
  rw [if_neg hda88, if_neg hda88, Program.bind_bind, Program.bind_bind]
  refine bind_congr fun regs => ?_
  by_cases h88 : ¬ regs.carry ∧ regs.eax &&& 0xFF00 ≠ 0x8600 ∧ regs.eax &&& 0xFF00 ≠ 0x8000
  · rw [if_pos h88, if_pos h88]
    exact addOne_kib (toNat_and_ffff _)
  rw [if_neg h88, if_neg h88, Program.bind_bind, Program.bind_bind]
  refine bind_congr fun regs => ?_
  by_cases h8a : ¬ regs.carry
  · rw [if_pos h8a, if_pos h8a]
    refine addOne_kib ?_
    rw [← toNat_and_ffff, ← toNat_and_ffff]
    exact toNat_shiftLeft_or (k := 16) (by decide) (hffff _) (hffff _) (by decide)
  rw [if_neg h8a, if_neg h8a]
  simp only [Program.bind_bind]
  refine bind_congr fun _ => bind_congr fun low => bind_congr fun _ => bind_congr fun high => ?_
  refine addOne_kib ?_
  rw [UInt32.or_comm]
  exact toNat_shiftLeft_or (k := 8) (w := 8) (by decide) low.toNat_lt high.toNat_lt (by decide)

end Factor

/-- The request adds nothing to the map. -/
def Request.Looks (q : Request) : Prop := q.size = none

/-- Nothing, where the service is missing, or two amounts. -/
def PairOrNone (as : List Amount) : Prop := as = [] ∨ ∃ low high, as = [low, high]

section Reports

open Program

theorem ends_load32 (a : ℕ) : (load32 a).Ends Request.Looks fun _ => True :=
  ⟨rfl, fun _ => ⟨rfl, fun _ => ⟨rfl, fun _ => ⟨rfl, fun _ => trivial⟩⟩⟩⟩

theorem e8x1Amounts_pair (w : ℕ) (regs : Registers) :
    ∃ low high, e8x1Amounts w regs = [low, high] := by
  unfold e8x1Amounts
  split <;> exact ⟨_, _, rfl⟩

/-- Registers of 16 bits cannot report 4 GiB. -/
theorem e8x1Amounts_below (regs : Registers) : ∀ a ∈ e8x1Amounts 16 regs, a.bytes < 2^32 := by
  intro a ha
  unfold e8x1Amounts at ha
  unfold Amount.bytes
  split at ha <;> rcases List.mem_pair.mp ha with rfl | rfl <;> dsimp only <;> omega

theorem ends_reportE8x1 (eax : UInt32) : (reportE8x1 eax).Ends Request.Looks PairOrNone := by
  refine Ends.bind (A := fun _ => True) ⟨rfl, fun _ => trivial⟩ fun regs _ => ?_
  split
  · exact .inl rfl
  · exact .inr (e8x1Amounts_pair _ regs)

theorem ends_reportC7 : reportC7.Ends Request.Looks PairOrNone := by
  refine Ends.bind (A := fun _ => True) ⟨rfl, fun _ => trivial⟩ fun regs _ => ?_
  split
  · exact .inl rfl
  refine Ends.bind (A := fun _ => True) ⟨rfl, fun _ => trivial⟩ fun feature _ => ?_
  split
  · exact .inl rfl
  refine (ends_load32 _).bind fun _ _ => (ends_load32 _).bind fun _ _ => ?_
  exact .inr ⟨_, _, rfl⟩

theorem ends_reportExtended : reportExtended.Ends Request.Looks fun as => ∃ a, as = [a] := by
  refine Ends.bind (A := fun _ => True) ⟨rfl, fun _ => trivial⟩ fun regs _ => ?_
  split
  · exact ⟨_, rfl⟩
  refine Ends.bind (A := fun _ => True) ⟨rfl, fun _ => trivial⟩ fun regs _ => ?_
  split
  · exact ⟨_, rfl⟩
  refine Ends.bind (A := fun _ => True) ⟨rfl, fun _ => trivial⟩ fun regs _ => ?_
  split
  · exact ⟨_, rfl⟩
  exact ⟨rfl, fun _ => ⟨rfl, fun _ => ⟨rfl, fun _ => ⟨rfl, fun _ => ⟨_, rfl⟩⟩⟩⟩⟩

end Reports

section Exact

variable {fw : Firmware} {h : List Request} {α : Type} {report : Detection (List Amount)}

/-- The sizes are those of the part that adds, since a report adds nothing. -/
theorem addedSizes_bind {A : List Amount → Prop} {f : List Amount → Detection α}
    (hreport : report.Ends Request.Looks A)
    (hadd : ∀ as h, A as → addedSizes fw h (f as) = as.map fun a => a.bytes % 2^32) :
    addedSizes fw h (report >>= f) = (amounts fw h report).map fun a => a.bytes % 2^32 := by
  obtain ⟨as, qs, hrun, has, hlooks⟩ := hreport.run fw h
  have hnone : qs.filterMap Request.size = [] := List.filterMap_eq_nil_iff.mpr hlooks
  rw [amounts, hrun, Option.map_some, Option.getD_some, ← hadd as (h ++ qs) has, addedSizes,
    addedSizes, Program.run_bind, hrun]
  cases hf : (f as).run fw (h ++ qs) with
  | none => simp [hf]
  | some r => simp [hf, hnone]

theorem addedSizes_addPair (as : List Amount) (h : List Request) (has : PairOrNone as) :
    addedSizes fw h (addPair as) = as.map fun a => a.bytes % 2^32 := by
  rcases has with rfl | ⟨low, high, rfl⟩ <;> rfl

theorem addedSizes_addOne (as : List Amount) (h : List Request) (has : ∃ a, as = [a]) :
    addedSizes fw h (addOne as) = as.map fun a => a.bytes % 2^32 := by
  obtain ⟨a, rfl⟩ := has
  rfl

/-- What 32 bits keep of the amounts is exact if none of them reaches 4 GiB. -/
theorem exactSizes_iff {p : Detection α}
    (hsizes : addedSizes fw h p = (amounts fw h report).map fun a => a.bytes % 2^32) :
    ExactSizes fw h p report ↔ Below4GiB fw h report := by
  constructor
  · intro hexact a ha
    have hmod : a.bytes % 2^32 = a.bytes :=
      List.map_inj_left.mp (hsizes.symm.trans hexact.equal) a ha
    exact hmod ▸ Nat.mod_lt _ (by decide)
  · intro hbelow
    refine ⟨?_, fun a ha => (hbelow a ha).trans (by decide)⟩
    rw [hsizes]
    exact List.map_congr_left fun a ha => Nat.mod_eq_of_lt (hbelow a ha)

theorem e801_below (fw : Firmware) (h : List Request) : Below4GiB fw h (reportE8x1 0xE801) := by
  have hends : (reportE8x1 0xE801).Ends Request.Looks fun as => ∀ a ∈ as, a.bytes < 2^32 := by
    refine Program.Ends.bind (A := fun _ => True) ⟨rfl, fun _ => trivial⟩ fun regs _ => ?_
    split
    · exact fun a ha => absurd ha List.not_mem_nil
    · exact e8x1Amounts_below regs
  obtain ⟨as, qs, hrun, has, -⟩ := hends.run fw h
  rw [Below4GiB, amounts, hrun]
  exact has

end Exact

/-- For every answer of the firmware and every table: the entries have the exact
sizes if and only if the amounts reported are below 4 GiB each, as those of E801
always are. -/
theorem fallbackSizes_exact_iff (fw : Firmware) (h : List Request) :
    (ExactSizes fw h (tryE8x1 0xE881) (reportE8x1 0xE881) ↔
      Below4GiB fw h (reportE8x1 0xE881)) ∧
    ExactSizes fw h (tryE8x1 0xE801) (reportE8x1 0xE801) ∧
    (ExactSizes fw h tryC7 reportC7 ↔ Below4GiB fw h reportC7) ∧
    (ExactSizes fw h addExtendedMemory reportExtended ↔ Below4GiB fw h reportExtended) := by
  have hpair (eax : UInt32) : ExactSizes fw h (tryE8x1 eax) (reportE8x1 eax) ↔
      Below4GiB fw h (reportE8x1 eax) := by
    refine exactSizes_iff ?_
    rw [tryE8x1_eq]
    exact addedSizes_bind (ends_reportE8x1 eax) addedSizes_addPair
  refine ⟨hpair _, (hpair _).mpr (e801_below fw h), exactSizes_iff ?_, exactSizes_iff ?_⟩
  · rw [tryC7_eq]
    exact addedSizes_bind ends_reportC7 addedSizes_addPair
  · rw [addExtendedMemory_eq]
    exact addedSizes_bind ends_reportExtended addedSizes_addOne

/-- Firmware that answers E881 with these registers. -/
def e881Firmware (regs : Registers) : Firmware
  | _, .int _ _ => regs
  | _, .intRange _ regs range => (regs, range)
  | _, .load _ => (0 : UInt8)
  | _, .inb _ => (0 : UInt8)
  | _, .outb _ _ => ()
  | _, .addEntry _ => ()
  | _, .clean => ()

/-- 15 MiB below and 65536 blocks of 64 KiB above 16 MiB, and an entry of size 0
for the latter. -/
theorem e881_4gib_lost :
    addedSizes (e881Firmware { ecx := 0x3C00, edx := 0x10000 }) [] (tryE8x1 0xE881) =
        [0xF00000, 0] ∧
      ¬ ExactSizes (e881Firmware { ecx := 0x3C00, edx := 0x10000 }) [] (tryE8x1 0xE881)
        (reportE8x1 0xE881) := by
  refine ⟨by decide +kernel, ?_⟩
  intro hexact
  exact absurd hexact.equal (by decide +kernel)

end Gandr.Bios
