import Gandr.Bios.Mmap
import Gandr.Mmap.Alike

/-! A scan that fails. What `try_e820` added before an answer without the
signature is gone after `mmap_clean`, from the entries and from the pool as well,
so the fallback runs as if E820 had been refused at once. -/

namespace Gandr.Bios

open Mmap

/-- The firmware rejects the call, or its answer has no signature or is short. -/
def Refuses (regs : Registers) : Prop := regs.carry ∨ regs.eax ≠ smap ∨ regs.ecx < 20

/-- The first call of `try_e820`. -/
def firstScan (rangePtr : ℕ) : Request :=
  .intRange 0x15 (e820Registers {} rangePtr) { attributes := entryPresent }

/-- The request is not an E820 call. -/
def Request.Other : Request → Prop
  | .intRange _ _ _ => False
  | _ => True

/-- What `mmap_init` does once E820 has failed. -/
def afterScan (baseMemory : UInt32) : Detection Unit := do
  fallback baseMemory
  addEntry lowMem
  addEntry gandrMem

section Asks

open Program

theorem asks_biosIntCall (num : UInt8) (regs : Registers) :
    Asks Request.Other (biosIntCall num regs) := ⟨trivial, fun _ => trivial⟩

theorem asks_addEntry (e : MemoryMapEntry) : Asks Request.Other (addEntry e) :=
  ⟨trivial, fun _ => trivial⟩

theorem asks_load8 (a : ℕ) : Asks Request.Other (load8 a) := ⟨trivial, fun _ => trivial⟩

theorem asks_load32 (a : ℕ) : Asks Request.Other (load32 a) := by
  refine (asks_load8 a).bind fun _ => (asks_load8 _).bind fun _ => (asks_load8 _).bind fun _ =>
    (asks_load8 _).bind fun _ => ?_
  trivial

theorem asks_addTwo (e e' : MemoryMapEntry) (b : Bool) :
    Asks Request.Other (do addEntry e; addEntry e'; pure b) :=
  (asks_addEntry e).bind fun _ => (asks_addEntry e').bind fun _ => trivial

theorem asks_tryE8x1 (eax : UInt32) : Asks Request.Other (tryE8x1 eax) := by
  refine (asks_biosIntCall _ _).bind fun regs => ?_
  dsimp only
  split
  · trivial
  · exact asks_addTwo _ _ _

theorem asks_tryC7 : Asks Request.Other tryC7 := by
  refine (asks_biosIntCall _ _).bind fun regs => ?_
  split
  · trivial
  refine (asks_load8 _).bind fun feature => ?_
  split
  · trivial
  refine (asks_load32 _).bind fun _ => (asks_load32 _).bind fun _ => ?_
  exact asks_addTwo _ _ _

theorem asks_getExtendedMemory : Asks Request.Other getExtendedMemory := by
  refine (asks_biosIntCall _ _).bind fun _ => ?_
  split
  · trivial
  refine (asks_biosIntCall _ _).bind fun _ => ?_
  split
  · trivial
  refine (asks_biosIntCall _ _).bind fun _ => ?_
  split
  · trivial
  exact ⟨trivial, fun _ => ⟨trivial, fun _ => ⟨trivial, fun _ => ⟨trivial, fun _ => trivial⟩⟩⟩⟩

theorem Detection.asks_orElse {p q : Detection Bool} (hp : Asks Request.Other p)
    (hq : Asks Request.Other q) : Asks Request.Other (p.orElse q) := by
  refine hp.bind fun found => ?_
  split
  · trivial
  · exact hq

theorem asks_fallback (baseMemory : UInt32) : Asks Request.Other (fallback baseMemory) := by
  have hbase : Asks Request.Other (getBaseMemory baseMemory) := by
    unfold getBaseMemory
    split
    · exact (asks_biosIntCall _ _).bind fun _ => trivial
    · trivial
  refine hbase.bind fun _ => (asks_addEntry _).bind fun _ => (asks_addEntry _).bind fun _ => ?_
  refine Asks.bind (Detection.asks_orElse (asks_tryE8x1 _)
    (Detection.asks_orElse (asks_tryE8x1 _) asks_tryC7)) fun found => ?_
  split
  · trivial
  · exact asks_getExtendedMemory.bind fun _ => asks_addEntry _

/-- Without E820 no address range is asked for. -/
theorem asks_afterScan (baseMemory : UInt32) : Asks Request.Other (afterScan baseMemory) :=
  (asks_fallback baseMemory).bind fun _ => (asks_addEntry _).bind fun _ => asks_addEntry _

end Asks

section Lockstep

variable {T : Target} {fuel : ℕ} {fw fw' : Firmware} {K : Set Ptr} {s t : State} {α β : Type}

theorem andThen_andThen (o : Outcome) (f g : State → Outcome) :
    (o.andThen f).andThen g = o.andThen fun u => (f u).andThen g := by
  cases o <;> rfl

theorem perform_alike (h : AlikeOn K s t) (q : Request) :
    Outcome.AlikeFrom K (q.perform T fuel s) (q.perform T fuel t) := by
  cases q with
  | addEntry e => exact (addEntry_alike T fuel).2 K s t e h
  | clean => exact h.mmapClean.ret
  | _ => exact h.ret

/-- Firmware that answers alike takes alike states through the same run. -/
theorem exec_alike {p : Detection α} (hp : p.Asks Request.Other) {h h' : List Request}
    (hsame : ∀ l q, q.Other → fw (h ++ l) q = fw' (h' ++ l) q) (hst : AlikeOn K s t) :
    Outcome.AlikeFrom K (Detection.exec T fuel fw h p s) (Detection.exec T fuel fw' h' p t) := by
  induction p generalizing K s t h h' with
  | done a => exact hst.ret
  | ask q k ih =>
    have hreply : fw h q = fw' h' q := by simpa using hsame [] q hp.1
    rw [Detection.exec, Detection.exec, hreply]
    refine (perform_alike hst q).andThen fun K' u v _ huv => ih _ (hp.2 _) ?_ huv
    intro l q' hq'
    simpa using hsame (q :: l) q' hq'
  | stuck => exact .outOfFuel s t

theorem exec_bind {p : Detection α} {f : α → Detection β} {h qs : List Request} {a : α}
    (hrun : p.run fw h = some (a, qs)) :
    Detection.exec T fuel fw h (p >>= f) s =
      (performAll T fuel qs s).andThen (Detection.exec T fuel fw (h ++ qs) (f a)) := by
  change Detection.exec T fuel fw h (Program.bind p f) s = _
  induction p generalizing h qs s with
  | done b =>
    cases hrun
    simp [Program.bind, performAll, Outcome.andThen]
  | ask q k ih =>
    obtain ⟨⟨b, rest⟩, hk, hr⟩ := Option.map_eq_some_iff.mp hrun
    cases hr
    simp only [Program.bind, Detection.exec, performAll, andThen_andThen]
    congr 1
    funext u
    simpa using ih _ hk
  | stuck => cases hrun

end Lockstep

/-- The requests add only entries without a virtual start. -/
def AddsPlain (qs : List Request) : Prop := ∀ e, .addEntry e ∈ qs → e.virtualStart = 0

section Scan

variable {T : Target} {fuel : ℕ} {fw : Firmware} {rangePtr steps : ℕ} {h qs : List Request}
  {α : Type}

theorem AddsPlain.append {l l' : List Request} (h : AddsPlain l) (h' : AddsPlain l') :
    AddsPlain (l ++ l') := by
  intro e he
  rcases List.mem_append.mp he with he | he
  · exact h e he
  · exact h' e he

theorem addsPlain_range (num : UInt8) (regs : Registers) (range : AddressRange) :
    AddsPlain [.intRange num regs range] := by
  intro e he
  simp at he

theorem addAcpiRange_run {range : AddressRange} {f : Unit → Detection α} {a : α}
    (hrun : (addAcpiRange range >>= f).run fw h = some (a, qs)) :
    ∃ l rest, qs = l ++ rest ∧ AddsPlain l ∧ (f ()).run fw (h ++ l) = some (a, rest) := by
  unfold addAcpiRange at hrun
  split at hrun
  · refine ⟨[], qs, rfl, fun e he => by simp at he, ?_⟩
    rw [List.append_nil]
    exact hrun
  · obtain ⟨⟨b, rest⟩, hk, hr⟩ := Option.map_eq_some_iff.mp hrun
    cases hr
    refine ⟨[.addEntry (acpiEntry range)], rest, rfl, ?_, hk⟩
    intro e he
    cases List.mem_singleton.mp he
    rfl

/-- A scan that fails after its first call ends in `mmap_clean`. -/
theorem e820Loop_failed {regs : Registers} {range : AddressRange}
    (hrun : (e820Loop rangePtr steps regs range).run fw h = some (false, qs)) :
    ∃ l, qs = l ++ [.clean] ∧ AddsPlain l := by
  induction steps generalizing regs range h qs with
  | zero => cases hrun
  | succ steps ih =>
    obtain ⟨⟨b, rest⟩, hk, hr⟩ := Option.map_eq_some_iff.mp hrun
    cases hr
    have hfirst := addsPlain_range 0x15 (e820Registers regs rangePtr)
      { range with attributes := entryPresent }
    simp only [Program.bind] at hk
    split at hk
    split at hk
    · cases hk
    split at hk
    · cases hk
      exact ⟨_, rfl, hfirst⟩
    · obtain ⟨l, rest', rfl, hl, hrest⟩ := addAcpiRange_run hk
      split at hrest
      · obtain ⟨l', rfl, hl'⟩ := ih hrest
        exact ⟨_ :: (l ++ l'), by simp, hfirst.append (hl.append hl')⟩
      · cases hrest

/-- A failed scan asked once, or ends in `mmap_clean`. -/
theorem tryE820_failed (hrun : (tryE820 rangePtr steps).run fw [] = some (false, qs)) :
    qs = [firstScan rangePtr] ∨ ∃ l, qs = l ++ [.clean] ∧ AddsPlain l := by
  obtain ⟨⟨b, rest⟩, hk, hr⟩ := Option.map_eq_some_iff.mp hrun
  cases hr
  simp only [Program.bind] at hk
  split at hk
  split at hk
  · cases hk
    exact .inl rfl
  · obtain ⟨l, rest', rfl, hl, hrest⟩ := addAcpiRange_run hk
    obtain ⟨l', rfl, hl'⟩ := e820Loop_failed hrest
    refine .inr ⟨firstScan rangePtr :: (l ++ l'), by simp [firstScan], ?_⟩
    exact (addsPlain_range _ _ _).append (hl.append hl')

theorem tryE820_refused (hrefuse : Refuses (fw [] (firstScan rangePtr)).1) :
    (tryE820 rangePtr steps).run fw [] = some (false, [firstScan rangePtr]) := by
  unfold Refuses firstScan at hrefuse
  change Option.map _ (Program.run fw [firstScan rangePtr] (if _ then _ else _)) = _
  rw [if_pos hrefuse]
  rfl

theorem performAll_append (l l' : List Request) (s : State) :
    performAll T fuel (l ++ l') s = (performAll T fuel l s).andThen (performAll T fuel l') := by
  induction l generalizing s with
  | nil => rfl
  | cons q l ih =>
    rw [List.cons_append, performAll, performAll, andThen_andThen]
    congr 1
    funext u
    exact ih u

theorem performAll_plain {s : State} (hs : Plain s) (hqs : AddsPlain qs) :
    Plain (performAll T fuel qs s).state := by
  induction qs generalizing s with
  | nil => exact hs
  | cons q qs ih =>
    have hq : Plain (q.perform T fuel s).state := by
      cases q with
      | addEntry e =>
        exact (plain_stepClosed.addEntry T fuel).2 e (hqs e List.mem_cons_self) s hs
      | clean => exact hs.of_eq rfl rfl
      | _ => exact hs
    rw [performAll]
    cases hp : q.perform T fuel s with
    | returned u =>
      rw [hp] at hq
      exact ih hq fun e he => hqs e (List.mem_cons_of_mem q he)
    | panicked m u =>
      rw [hp] at hq
      exact hq
    | outOfFuel u =>
      rw [hp] at hq
      exact hq

/-- After a failed scan the map is like the initial one. -/
theorem failedScan_alike {v : State} (hrun : (tryE820 rangePtr steps).run fw [] = some (false, qs))
    (hv : performAll T fuel qs (State.initial T) = .returned v) :
    AlikeOn ∅ (State.initial T) v := by
  rcases tryE820_failed hrun with rfl | ⟨l, rfl, hl⟩
  · cases hv
    exact AlikeOn.initial T
  · have hplain : Plain (performAll T fuel l (State.initial T)).state :=
      performAll_plain (initial_plain T) hl
    rw [performAll_append] at hv
    cases hp : performAll T fuel l (State.initial T) with
    | returned u =>
      rw [hp] at hv hplain
      cases hv
      exact mmapClean_alike hplain
    | panicked m u =>
      rw [hp] at hv
      cases hv
    | outOfFuel u =>
      rw [hp] at hv
      cases hv

theorem mmapInit_after (baseMemory : UInt32)
    (hrun : (tryE820 rangePtr steps).run fw [] = some (false, qs)) (s : State) :
    Detection.exec T fuel fw [] (mmapInit rangePtr steps baseMemory) s =
      (performAll T fuel qs s).andThen
        (Detection.exec T fuel fw qs (afterScan baseMemory)) := by
  rw [mmapInit, detect, Program.bind_bind, exec_bind hrun]
  rfl

end Scan

/-- Firmware with 639 KiB of base memory and E801 that gives these answers to
the E820 calls, and then rejects them. -/
def scanFirmware (answers : List (Registers × AddressRange)) : Firmware
  | h, .intRange _ _ range =>
    let n := h.countP fun q => match q with
      | .intRange _ _ _ => true
      | _ => false
    answers.getD n ({ eflags := carryFlag }, range)
  | _, .int num regs =>
    if num = 0x12 then { eax := 639 }
    else if regs.eax = 0xE801 then { ecx := 0x3C00, edx := 0x700 }
    else { eflags := carryFlag }
  | _, .load _ => (0 : UInt8)
  | _, .inb _ => (0 : UInt8)
  | _, .outb _ _ => ()
  | _, .addEntry _ => ()
  | _, .clean => ()

/-- Two ranges that overlap, and an answer without the signature. -/
def brokenScan : List (Registers × AddressRange) :=
  [({ eax := smap, ecx := 20, ebx := 1 },
      { physicalStart := 0, size := 0x9FC00, type := 1, attributes := entryPresent }),
    ({ eax := smap, ecx := 20, ebx := 2 },
      { physicalStart := 0x2000, size := 0x1000, type := 4, attributes := entryPresent }),
    ({}, {})]

end Gandr.Bios
