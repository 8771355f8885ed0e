import Gandr.Bios.Services
import Gandr.Mmap.PageTypes
import Gandr.Mmap.Refill

/-! Memory detection with the firmware's help: `mmap_init` of
`bal/platform/bios/mmap.c`. The firmware may answer every call as it likes, also
in the light of the calls before. -/

namespace Gandr.Bios

open Mmap

/-- `struct address_range`. -/
structure AddressRange where
  physicalStart : UInt64 := 0
  size : UInt64 := 0
  type : UInt32 := 0
  attributes : UInt32 := 0
  deriving DecidableEq

def entryPresent : UInt32 := 1

/-- What `mmap_init` asks of the firmware, the ports and the memory map. -/
inductive Request where
  | int (num : UInt8) (regs : Registers)
  /-- a call that is handed a buffer for an address range -/
  | intRange (num : UInt8) (regs : Registers) (range : AddressRange)
  | load (address : ℕ)
  | outb (port : UInt16) (val : UInt8)
  | inb (port : UInt16)
  | addEntry (entry : MemoryMapEntry)
  | clean

def Reply : Request → Type
  | .int _ _ => Registers
  | .intRange _ _ _ => Registers × AddressRange
  | .load _ => UInt8
  | .outb _ _ => Unit
  | .inb _ => UInt8
  | .addEntry _ => Unit
  | .clean => Unit

abbrev Detection := Program Reply

/-- The firmware and the ports. -/
abbrev Firmware := Environment Reply

def biosIntCall (num : UInt8) (regs : Registers) : Detection Registers :=
  .ask (.int num regs) .done

def biosIntCallRange (num : UInt8) (regs : Registers) (range : AddressRange) :
    Detection (Registers × AddressRange) :=
  .ask (.intRange num regs range) .done

def load8 (address : ℕ) : Detection UInt8 := .ask (.load address) .done

def outb (port : UInt16) (val : UInt8) : Detection Unit := .ask (.outb port val) .done

def inb (port : UInt16) : Detection UInt8 := .ask (.inb port) .done

def addEntry (entry : MemoryMapEntry) : Detection Unit := .ask (.addEntry entry) .done

def clean : Detection Unit := .ask .clean .done

/-- The table `acpi_to_gd`. -/
def acpiToGd : List MemoryType :=
  [.unusableMemory, .conventionalMemory, .unusableMemory, .acpiReclaimMemory, .acpiMemoryNvs,
    .unusableMemory, .unusableMemory]

def acpiEntry (range : AddressRange) : MemoryMapEntry where
  type := acpiToGd.getD range.type.toNat .unusableMemory
  physicalStart := range.physicalStart.toNat
  size := range.size.toNat

def addAcpiRange (range : AddressRange) : Detection Unit :=
  if range.attributes &&& entryPresent = 0 then pure ()
  else addEntry (acpiEntry range)

def smap : UInt32 := 0x534D4150

/-- The registers of an E820 call that continues at `ebx`. -/
def e820Registers (regs : Registers) (rangePtr : ℕ) : Registers :=
  { regs with
    eax := 0x0000E820
    ecx := 24
    edx := smap
    es := rmSegFromPtr rangePtr
    edi := (rmOffsetFromPtr rangePtr).toUInt32 }

/-- The loop of `try_e820`, for at most `steps` rounds. -/
def e820Loop (rangePtr : ℕ) : ℕ → Registers → AddressRange → Detection Bool
  | 0, _, _ => .stuck
  | steps + 1, regs, range => do
    let (regs, range) ← biosIntCallRange 0x15 (e820Registers regs rangePtr)
      { range with attributes := entryPresent }
    if regs.carry then
      pure true
    else if regs.eax ≠ smap ∨ regs.ecx < 20 then do
      clean
      pure false
    else do
      addAcpiRange range
      if regs.ebx ≠ 0 then e820Loop rangePtr steps regs range
      else pure true

def tryE820 (rangePtr steps : ℕ) : Detection Bool := do
  let (regs, range) ← biosIntCallRange 0x15 (e820Registers {} rangePtr)
    { attributes := entryPresent }
  if regs.carry ∨ regs.eax ≠ smap ∨ regs.ecx < 20 then
    pure false
  else do
    addAcpiRange range
    e820Loop rangePtr steps regs range

def conventionalEntry (physicalStart size : ℕ) : MemoryMapEntry :=
  { type := .conventionalMemory, physicalStart, size }

def tryE8x1 (eax : UInt32) : Detection Bool := do
  let regs ← biosIntCall 0x15 { eax }
  if regs.carry then
    pure false
  else do
    let mask : UInt32 := if eax = 0xE801 then 0xFFFF else 0xFFFFFFFF
    -- CX and DX, or AX and BX where CX is zero
    let low := if regs.ecx &&& mask = 0 then regs.eax &&& mask else regs.ecx &&& mask
    let high := if regs.ecx &&& mask = 0 then regs.ebx &&& mask else regs.edx &&& mask
    addEntry (conventionalEntry 0x100000 (low * 1024).toNat)
    addEntry (conventionalEntry 0x1000000 (high * 1024 * 64).toNat)
    pure true

/-- A little-endian word in memory. -/
def load32 (address : ℕ) : Detection UInt32 := do
  let b₀ ← load8 address
  let b₁ ← load8 (address + 1)
  let b₂ ← load8 (address + 2)
  let b₃ ← load8 (address + 3)
  pure (b₀.toUInt32 ||| b₁.toUInt32 <<< 8 ||| b₂.toUInt32 <<< 16 ||| b₃.toUInt32 <<< 24)

/-- The linear address of a real mode segment and offset. -/
def linear (seg : UInt16) (offset : UInt32) : ℕ := seg.toNat * 0x10 + (offset &&& 0xFFFF).toNat

def tryC7 : Detection Bool := do
  let regs ← biosIntCall 0x15 { eax := 0xC0 }
  if regs.carry ∨ regs.eax &&& 0xFF00 ≠ 0 then
    pure false
  else do
    let feature ← load8 (linear regs.es regs.ebx + 6)
    if feature &&& ((1 : UInt8) <<< 4) = 0 then
      pure false
    else do
      -- `memory_1m` and `memory_16m` of the packed table
      let c7MemoryMap := linear regs.ds regs.esi
      let memory1m ← load32 (c7MemoryMap + 26)
      let memory16m ← load32 (c7MemoryMap + 30)
      addEntry (conventionalEntry 0x100000 (memory1m * 1024).toNat)
      addEntry (conventionalEntry 0x1000000 (memory16m * 1024).toNat)
      pure true

def getExtendedMemory : Detection UInt32 := do
  let regs ← biosIntCall 0x15 { eax := 0xDA88 }
  if ¬ regs.carry then
    pure (((regs.ecx &&& 0xFF) <<< 16 ||| regs.ebx &&& 0xFFFF) * 1024)
  else do
    let regs ← biosIntCall 0x15 { regs with eax := 0x8800 }
    if ¬ regs.carry ∧ regs.eax &&& 0xFF00 ≠ 0x8600 ∧ regs.eax &&& 0xFF00 ≠ 0x8000 then
      pure ((regs.eax &&& 0xFFFF) * 1024)
    else do
      let regs ← biosIntCall 0x15 { regs with eax := 0x8A00 }
      if ¬ regs.carry then
        pure (((regs.edx &&& 0xFFFF) <<< 16 ||| regs.eax &&& 0xFFFF) * 1024)
      else do
        outb 0x70 0x30
        let low ← inb 0x71
        outb 0x70 0x31
        let high ← inb 0x71
        pure ((low.toUInt32 ||| high.toUInt32 <<< 8) * 1024)

/-- `get_base_memory`: the result is also what its static variable, now
`baseMemory`, holds afterwards. -/
def getBaseMemory (baseMemory : UInt32) : Detection UInt32 :=
  if baseMemory = 0 then do
    let regs ← biosIntCall 0x12 {}
    pure (regs.eax * 1024)
  else pure baseMemory

/-- The hole for ISA devices below 16 MiB. -/
def isaHole : MemoryMapEntry :=
  { type := .unusableMemory, physicalStart := 0xF00000, size := 0x100000 }

/-- The second where the first reports no success. -/
def Detection.orElse (p q : Detection Bool) : Detection Bool := do
  if ← p then pure true
  else q

/-- What `mmap_init` falls back on without E820. -/
def fallback (baseMemory : UInt32) : Detection Unit := do
  let base ← getBaseMemory baseMemory
  addEntry (conventionalEntry 0 base.toNat)
  addEntry isaHole
  let found ← (tryE8x1 0xE881).orElse ((tryE8x1 0xE801).orElse tryC7)
  if found then pure ()
  else do
    let extended ← getExtendedMemory
    addEntry (conventionalEntry 0x100000 extended.toNat)

/-- The part of `mmap_init` that depends on the firmware. -/
def detect (rangePtr steps : ℕ) (baseMemory : UInt32) : Detection Unit := do
  if ← tryE820 rangePtr steps then pure ()
  else fallback baseMemory

def lowMem : MemoryMapEntry :=
  { type := .unusableMemory, physicalStart := 0x0000, size := 0x1000 }

def gandrMem : MemoryMapEntry :=
  { type := .loaderCode, physicalStart := 0x8000, size := 0x30000 - 0x8000 }

def mmapInit (rangePtr steps : ℕ) (baseMemory : UInt32) : Detection Unit := do
  detect rangePtr steps baseMemory
  addEntry lowMem
  addEntry gandrMem

/-- What a request does to the memory map. -/
def Request.perform (T : Target) (fuel : ℕ) : Request → State → Outcome
  | .addEntry entry, s => mmapAddEntry T fuel entry s
  | .clean, s => .returned (mmapClean T s)
  | _, s => .returned s

/-- A run on the memory map, after the requests `h`. -/
def Detection.exec {α : Type} (T : Target) (fuel : ℕ) (fw : Firmware) :
    List Request → Detection α → State → Outcome
  | _, .done _, s => .returned s
  | h, .ask q k, s =>
    (q.perform T fuel s).andThen (exec T fuel fw (h ++ [q]) (k (fw h q)))
  | _, .stuck, s => .outOfFuel s

def performAll (T : Target) (fuel : ℕ) : List Request → State → Outcome
  | [], s => .returned s
  | q :: qs, s => (q.perform T fuel s).andThen (performAll T fuel qs)

/-- The entries added since the map was last cleaned, after `es`. -/
def remaining : List MemoryMapEntry → List Request → List MemoryMapEntry
  | es, [] => es
  | es, .addEntry e :: qs => remaining (es ++ [e]) qs
  | _, .clean :: qs => remaining [] qs
  | es, _ :: qs => remaining es qs

/-- Every added entry ends below the last page and clobbers nothing. -/
def SafeRequests (T : Target) (fuel : ℕ) : List Request → State → Prop
  | [], _ => True
  | .addEntry e :: qs, s => Fits e ∧ SafePieces T fuel (pieces e) s ∧
    (mmapAddEntry T (fuel + 1) e s).Returns (SafeRequests T fuel qs)
  | .clean :: qs, s => SafeRequests T fuel qs (mmapClean T s)
  | _ :: qs, s => SafeRequests T fuel qs s

instance decidableSafeRequests (T : Target) (fuel : ℕ) :
    (qs : List Request) → DecidablePred (SafeRequests T fuel qs)
  | [], _ => .isTrue trivial
  | .addEntry e :: qs, s =>
    have := decidableSafeRequests T fuel qs
    inferInstanceAs (Decidable (Fits e ∧ SafePieces T fuel (pieces e) s ∧
      Outcome.Returns _ (SafeRequests T fuel qs)))
  | .clean :: qs, s => decidableSafeRequests T fuel qs (mmapClean T s)
  | .int _ _ :: qs, s => decidableSafeRequests T fuel qs s
  | .intRange _ _ _ :: qs, s => decidableSafeRequests T fuel qs s
  | .load _ :: qs, s => decidableSafeRequests T fuel qs s
  | .outb _ _ :: qs, s => decidableSafeRequests T fuel qs s
  | .inb _ :: qs, s => decidableSafeRequests T fuel qs s

section Requests

variable {T : Target} {fuel : ℕ} {fw : Firmware} {s : State} {α : Type}

/-- A run that ends performs its requests in order. -/
theorem exec_eq {p : Detection α} {h qs : List Request} {a : α}
    (hrun : p.run fw h = some (a, qs)) :
    Detection.exec T fuel fw h p s = performAll T fuel qs s := by
  induction p generalizing h qs s with
  | done b =>
    cases hrun
    rfl
  | ask q k ih =>
    obtain ⟨⟨b, rest⟩, hk, hr⟩ := Option.map_eq_some_iff.mp hrun
    cases hr
    rw [Detection.exec, performAll]
    congr 1
    funext t
    exact ih _ hk
  | stuck => cases hrun

theorem remaining_append (es : List MemoryMapEntry) (qs qs' : List Request) :
    remaining es (qs ++ qs') = remaining (remaining es qs) qs' := by
  induction qs generalizing es with
  | nil => rfl
  | cons q qs ih => cases q <;> exact ih _

theorem perform_monotone (T : Target) (fuel : ℕ) (q : Request) : Monotone (q.perform T fuel) := by
  cases q with
  | addEntry e => exact (addEntry_monotone T fuel).2 e
  | _ => exact fun s => le_rfl

theorem performAll_monotone (T : Target) (fuel : ℕ) (qs : List Request) :
    Monotone (performAll T fuel qs) := by
  induction qs with
  | nil => exact fun s => le_rfl
  | cons q qs ih => exact (perform_monotone T fuel q).andThen ih

theorem initial_capacity (T : Target) : capacity T (State.initial T) = 32 := by
  simp [capacity, mmapStaticSlots, State.initial]

/-- The map is what `es` makes of an empty one. -/
structure Holds (T : Target) (s : State) (es : List MemoryMapEntry) : Prop where
  gains : Gains T (State.initial T) s (es.flatMap pieces)
  fits : ∀ e ∈ es, Fits e

/-- One request adds an entry, starts over, or leaves the map alone. -/
theorem perform_holds {es : List MemoryMapEntry} {q : Request} {qs : List Request}
    (hfuel : 68 ≤ fuel) (h : Holds T s es) (hsafe : SafeRequests T fuel (q :: qs) s) :
    Ensures s (fun t => Holds T t (remaining es [q]) ∧ SafeRequests T fuel qs t)
      (q.perform T (fuel + 1) s) := by
  cases q with
  | addEntry e =>
    obtain ⟨hfits, hpieces, hrest⟩ := hsafe
    have hcap : 2 * capacity T s + 4 ≤ fuel := by
      rw [h.gains.capacity, initial_capacity]
      exact hfuel
    refine (mmapAddEntry_gains h.gains.wellFormed hfits hcap hpieces).and_returned.mono ?_
    rintro t ⟨ht, hgain⟩
    rw [ht] at hrest
    refine ⟨⟨?_, ?_⟩, hrest⟩
    · rw [remaining, remaining, List.flatMap_append, List.flatMap_singleton]
      exact h.gains.trans hgain
    · intro m hm
      rcases List.mem_append.mp hm with hm | hm
      · exact h.fits m hm
      · obtain rfl := List.mem_singleton.mp hm
        exact hfits
  | clean =>
    refine .returned fun _ => ⟨⟨⟨?_, h.gains.table, h.gains.pages, ?_⟩, by simp [remaining]⟩, hsafe⟩
    · exact ⟨h.gains.wellFormed.complete, ⟨[], .static rfl rfl rfl rfl⟩, tidy_nil⟩
    · intro x
      simp [remaining, mmapClean, State.entries, State.initial]
  | _ => exact .returned fun _ => ⟨h, hsafe⟩

/-- The map holds what was added since it was last cleaned. -/
theorem performAll_holds {es : List MemoryMapEntry} {qs : List Request} (hfuel : 68 ≤ fuel)
    (h : Holds T s es) (hsafe : SafeRequests T fuel qs s) :
    Ensures s (fun u => Holds T u (remaining es qs)) (performAll T (fuel + 1) qs s) := by
  induction qs generalizing es s with
  | nil => exact .returned fun _ => h
  | cons q qs ih =>
    refine (perform_holds hfuel h hsafe).andThen (perform_monotone T (fuel + 1) q s)
      (performAll_monotone T (fuel + 1) qs) ?_
    rintro t - ⟨ht, hrest⟩
    have hsplit := remaining_append es [q] qs
    rw [List.singleton_append] at hsplit
    rw [hsplit]
    exact ih ht hrest

theorem Holds.pageType {es : List MemoryMapEntry} (h : Holds T s es) (p : ℕ) :
    pageType s.entries p = strongest overlapPrecedence (claimedTypes es p) :=
  h.gains.pageType overlapPrecedence_complete rfl h.fits p

end Requests

/-- The page intersects the memory that `low_mmap.txt` gives to stage 1, the
stacks, the paging structures and the BAL. -/
def BootPage (p : ℕ) : Prop := 0x600 < 4096 * p + 4096 ∧ 4096 * p < 0x30000

def BootHeld (s : State) : Prop :=
  ∀ p, BootPage p → pageType s.entries p ≠ some .conventionalMemory

/-- The entries leave the page to conventional memory. -/
def FreePage (es : List MemoryMapEntry) (p : ℕ) : Prop :=
  (∃ e ∈ es, Covers e p ∧ e.type = .conventionalMemory) ∧
  (¬ ∃ e ∈ es, Touches e p ∧ ¬ Covers e p) ∧
  ∀ e ∈ es, Covers e p → e.type = .conventionalMemory ∨ e.type = .reservedMemoryType

/-- The pages that neither `low_mem` nor `gandr_mem` covers. -/
def GapPage (p : ℕ) : Prop := 1 ≤ p ∧ p ≤ 7

def GapHeld (es : List MemoryMapEntry) : Prop := ∀ p, GapPage p → ¬ FreePage es p

section Boot

variable {es : List MemoryMapEntry} {p : ℕ}

theorem fixed_untouched (hp : GapPage p) : ¬ Touches lowMem p ∧ ¬ Touches gandrMem p := by
  simp only [GapPage, Touches, lowMem, gandrMem] at hp ⊢
  omega

/-- Outside the gap one of the fixed entries covers a boot page. -/
theorem fixed_covers (hp : BootPage p) (hgap : ¬ GapPage p) :
    Covers lowMem p ∨ Covers gandrMem p := by
  simp only [BootPage, GapPage, Covers, lowMem, gandrMem] at hp hgap ⊢
  omega

/-- Of the boot pages only those in the gap can come out as conventional. -/
theorem strongest_boot (hp : BootPage p) :
    strongest overlapPrecedence (claimedTypes (es ++ [lowMem, gandrMem]) p) =
        some .conventionalMemory ↔ GapPage p ∧ FreePage es p := by
  rw [strongest_conventional]
  constructor
  · rintro ⟨⟨e, he, hc, ht⟩, hpart, hall⟩
    have hgap : GapPage p := by
      by_contra hgap
      rcases fixed_covers hp hgap with hcov | hcov
      · simpa [lowMem] using hall lowMem (by simp) hcov
      · simpa [gandrMem] using hall gandrMem (by simp) hcov
    have hin : ∀ e ∈ es, e ∈ es ++ [lowMem, gandrMem] := fun e he => List.mem_append_left _ he
    refine ⟨hgap, ⟨e, ?_, hc, ht⟩, ?_, fun e he => hall e (hin e he)⟩
    · rcases List.mem_append.mp he with he | he
      · exact he
      · obtain ⟨h₁, h₂⟩ := fixed_untouched hgap
        rcases List.mem_pair.mp he with rfl | rfl
        · exact absurd hc.touches h₁
        · exact absurd hc.touches h₂
    · rintro ⟨e, he, hpe⟩
      exact hpart ⟨e, hin e he, hpe⟩
  · rintro ⟨hgap, ⟨e, he, hc⟩, hpart, hall⟩
    obtain ⟨h₁, h₂⟩ := fixed_untouched hgap
    refine ⟨⟨e, List.mem_append_left _ he, hc⟩, ?_, ?_⟩
    · rintro ⟨e, he, ht, hnc⟩
      rcases List.mem_append.mp he with he | he
      · exact hpart ⟨e, he, ht, hnc⟩
      · rcases List.mem_pair.mp he with rfl | rfl
        · exact h₁ ht
        · exact h₂ ht
    · intro e he hc
      rcases List.mem_append.mp he with he | he
      · exact hall e he hc
      · rcases List.mem_pair.mp he with rfl | rfl
        · exact absurd hc.touches h₁
        · exact absurd hc.touches h₂

end Boot

/-- The requests of `mmap_init` are those of the detection and two more. -/
theorem mmapInit_run {fw : Firmware} {rangePtr steps : ℕ} {baseMemory : UInt32}
    {qs : List Request} (h : (detect rangePtr steps baseMemory).run fw [] = some ((), qs)) :
    (mmapInit rangePtr steps baseMemory).run fw [] =
      some ((), qs ++ [.addEntry lowMem, .addEntry gandrMem]) := by
  rw [mmapInit, Program.run_bind, h]
  rfl

/-- Firmware whose E820 reports these ranges in order, and nothing else. -/
def e820Firmware (ranges : List AddressRange) : Firmware
  | h, .intRange _ _ range =>
    let n := h.countP fun q => match q with
      | .intRange _ _ _ => true
      | _ => false
    match ranges[n]? with
    | none => ({ eflags := carryFlag }, range)
    | some range =>
      ({ eax := smap, ecx := 24, ebx := if n + 1 < ranges.length then 1 else 0 }, range)
  | _, .int _ _ => { eflags := carryFlag }
  | _, .load _ => (0 : UInt8)
  | _, .inb _ => (0 : UInt8)
  | _, .outb _ _ => ()
  | _, .addEntry _ => ()
  | _, .clean => ()

/-- The usual memory below 640 KiB, of the given type, and 127 MiB above 1 MiB. -/
def lowMemoryAs (type : UInt32) : List AddressRange :=
  [{ physicalStart := 0, size := 0x9FC00, type, attributes := entryPresent },
    { physicalStart := 0x100000, size := 0x7F00000, type := 1, attributes := entryPresent }]

/-- What is asked while that is detected. -/
def lowMemoryRequests (type : UInt32) : List Request :=
  (((detect 0x9000 2 0).run (e820Firmware (lowMemoryAs type)) []).getD ((), [])).2

end Gandr.Bios
