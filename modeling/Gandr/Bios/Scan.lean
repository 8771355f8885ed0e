import Gandr.Bios.Fallback

/-! The E820 scan against firmware that serves a list of descriptors. The
firmware may keep its position in the continuation value or by itself; what it
promises is the next descriptor to a caller that hands back the value it got, and
the first one to a caller that hands in zero. -/

namespace Gandr.Bios

open Mmap

/-- A range of the firmware. Without attributes it stores 20 bytes only. -/
structure Descriptor where
  physicalStart : UInt64
  size : UInt64
  type : UInt32
  attributes : Option UInt32

/-- The buffer after the descriptor is stored into it. -/
def Descriptor.store (d : Descriptor) (range : AddressRange) : AddressRange where
  physicalStart := d.physicalStart
  size := d.size
  type := d.type
  attributes := d.attributes.getD range.attributes

/-- The entry for a descriptor that counts as present. -/
def Descriptor.entry (d : Descriptor) : Option MemoryMapEntry :=
  if d.attributes.getD entryPresent &&& entryPresent = 0 then none
  else some (acpiEntry (d.store {}))

/-- How the firmware says that a descriptor was the last. -/
inductive LastSign where
  /-- the continuation value zero comes with it -/
  | zero
  /-- the call after it sets the carry flag -/
  | carry
  deriving DecidableEq

/-- After the calls `h` the last answer was about descriptor `i` and came with
the continuation value `c`. -/
inductive Position (fw : Firmware) : List Request → ℕ → UInt32 → Prop where
  | first {h : List Request} {num : UInt8} {regs : Registers} {range : AddressRange}
      (hzero : regs.ebx = 0) :
      Position fw (h ++ [.intRange num regs range]) 0 (fw h (.intRange num regs range)).1.ebx
  | next {h : List Request} {i : ℕ} {num : UInt8} {regs : Registers} {range : AddressRange}
      (hpos : Position fw h i regs.ebx) (hne : regs.ebx ≠ 0) :
      Position fw (h ++ [.intRange num regs range]) (i + 1)
        (fw h (.intRange num regs range)).1.ebx
  | other {h : List Request} {i : ℕ} {c : UInt32} {q : Request} (hpos : Position fw h i c)
      (hq : q.Other) : Position fw (h ++ [q]) i c

/-- The answer about descriptor `i`, into the buffer `range`. -/
def Answers (ds : List Descriptor) (sign : LastSign) (i : ℕ) (range : AddressRange)
    (reply : Registers × AddressRange) : Prop :=
  match ds[i]? with
  | none => reply.1.carry
  | some d => ¬ reply.1.carry ∧ reply.1.eax = smap ∧
    reply.1.ecx = (if d.attributes.isSome then 24 else 20) ∧ reply.2 = d.store range ∧
    (reply.1.ebx = 0 ↔ i + 1 = ds.length ∧ sign = .zero)

/-- The firmware serves the descriptors `ds`. -/
structure Serves (fw : Firmware) (ds : List Descriptor) (sign : LastSign) : Prop where
  first (h : List Request) (regs : Registers) (rangePtr : ℕ) (range : AddressRange)
    (hzero : regs.ebx = 0) :
    Answers ds sign 0 range (fw h (.intRange 0x15 (e820Registers regs rangePtr) range))
  next (h : List Request) (i : ℕ) (regs : Registers) (rangePtr : ℕ) (range : AddressRange)
    (hpos : Position fw h i regs.ebx) (hne : regs.ebx ≠ 0) :
    Answers ds sign (i + 1) range (fw h (.intRange 0x15 (e820Registers regs rangePtr) range))

/-- After the calls `h`, no E820 call follows an answer with continuation zero. -/
def StopsAtZero (fw : Firmware) : List Request → List Request → Prop
  | _, [] => True
  | h, .intRange num regs range :: qs =>
    ((fw h (.intRange num regs range)).1.ebx = 0 → ∀ q ∈ qs, q.Other) ∧
      StopsAtZero fw (h ++ [.intRange num regs range]) qs
  | h, q :: qs => StopsAtZero fw (h ++ [q]) qs

def Request.entry : Request → Option MemoryMapEntry
  | .addEntry e => some e
  | _ => none

/-- The scan reports success, adds every present descriptor once and in order,
and stops where the continuation value does. -/
def Enumerates (fw : Firmware) (rangePtr steps : ℕ) (ds : List Descriptor) : Prop :=
  ∃ qs, (tryE820 rangePtr steps).run fw [] = some (true, qs) ∧
    qs.filterMap Request.entry = ds.filterMap Descriptor.entry ∧ StopsAtZero fw [] qs

/-- What a stored descriptor adds to the requests. -/
def Descriptor.requests (d : Descriptor) : List Request := d.entry.toList.map .addEntry

section Step

variable {fw : Firmware} {h : List Request} {α : Type} {d : Descriptor}

theorem store_present (d : Descriptor) {range : AddressRange} (hr : range.attributes = entryPresent) :
    (addAcpiRange (d.store range) : Detection Unit) =
      match d.entry with
      | none => pure ()
      | some e => addEntry e := by
  unfold addAcpiRange Descriptor.entry Descriptor.store
  rw [hr]
  dsimp only
  split_ifs <;> rfl

/-- Storing a descriptor and going on. -/
theorem addAcpiRange_store {range : AddressRange} (hr : range.attributes = entryPresent)
    (f : Unit → Detection α) :
    (addAcpiRange (d.store range) >>= f).run fw h =
      ((f ()).run fw (h ++ d.requests)).map fun r => (r.1, d.requests ++ r.2) := by
  rw [store_present d hr, Program.run_bind, Descriptor.requests]
  cases d.entry with
  | none => simp
  | some e => rfl

theorem position_requests {i : ℕ} {c : UInt32} (hpos : Position fw h i c) (d : Descriptor) :
    Position fw (h ++ d.requests) i c := by
  unfold Descriptor.requests
  cases d.entry with
  | none => simpa using hpos
  | some e => exact hpos.other trivial

theorem stopsAtZero_requests {qs : List Request} (d : Descriptor) :
    StopsAtZero fw h (d.requests ++ qs) ↔ StopsAtZero fw (h ++ d.requests) qs := by
  unfold Descriptor.requests
  cases d.entry with
  | none => simp
  | some e => rfl

theorem requests_other (d : Descriptor) : ∀ q ∈ d.requests, q.Other := by
  intro q hq
  obtain ⟨e, -, rfl⟩ := List.mem_map.mp hq
  trivial

theorem entries_requests (d : Descriptor) :
    d.requests.filterMap Request.entry = d.entry.toList := by
  unfold Descriptor.requests
  cases d.entry <;> rfl

end Step

section Scan

variable {fw : Firmware} {ds : List Descriptor} {sign : LastSign} {h : List Request}
  {rangePtr steps i : ℕ} {regs : Registers} {range : AddressRange}

/-- The call of one round. -/
def scanCall (rangePtr : ℕ) (regs : Registers) (range : AddressRange) : Request :=
  .intRange 0x15 (e820Registers regs rangePtr) { range with attributes := entryPresent }

theorem short_answer {d : Descriptor} {reply : Registers × AddressRange}
    (hecx : reply.1.ecx = if d.attributes.isSome then 24 else 20) : ¬ reply.1.ecx < 20 := by
  rw [hecx]
  split <;> decide

theorem stopsAtZero_round {d : Descriptor} {qs : List Request}
    (hzero : (fw h (scanCall rangePtr regs range)).1.ebx = 0 → ∀ q ∈ qs, q.Other)
    (hqs : StopsAtZero fw (h ++ [scanCall rangePtr regs range] ++ d.requests) qs) :
    StopsAtZero fw h (scanCall rangePtr regs range :: d.requests ++ qs) := by
  refine ⟨?_, (stopsAtZero_requests d).mpr hqs⟩
  intro hz q hq
  rcases List.mem_append.mp hq with hq | hq
  · exact requests_other d q hq
  · exact hzero hz q hq

theorem entries_round (d : Descriptor) (qs : List Request) :
    (scanCall rangePtr regs range :: d.requests ++ qs).filterMap Request.entry =
      d.entry.toList ++ qs.filterMap Request.entry := by
  rw [List.cons_append, List.filterMap_cons_none rfl, List.filterMap_append, entries_requests]

theorem entries_cons (d : Descriptor) (rest : List Descriptor) :
    (d :: rest).filterMap Descriptor.entry =
      d.entry.toList ++ rest.filterMap Descriptor.entry := by
  rw [List.filterMap_cons]
  cases d.entry <;> rfl

/-- A round that is answered with the carry flag. -/
theorem e820Loop_carry (hreply : (fw h (scanCall rangePtr regs range)).1.carry) :
    (e820Loop rangePtr (steps + 1) regs range).run fw h =
      some (true, [scanCall rangePtr regs range]) := by
  unfold scanCall at hreply
  change Option.map _ (Program.run fw _ (if _ then _ else _)) = _
  rw [if_pos hreply]
  rfl

/-- A round that is answered with a descriptor. -/
theorem e820Loop_stored {d : Descriptor} (hi : ds[i]? = some d)
    (hreply : Answers ds sign i { range with attributes := entryPresent }
      (fw h (scanCall rangePtr regs range))) :
    (e820Loop rangePtr (steps + 1) regs range).run fw h =
      ((if (fw h (scanCall rangePtr regs range)).1.ebx ≠ 0 then
          e820Loop rangePtr steps (fw h (scanCall rangePtr regs range)).1
            (fw h (scanCall rangePtr regs range)).2
        else pure true).run fw (h ++ [scanCall rangePtr regs range] ++ d.requests)).map
          fun r => (r.1, scanCall rangePtr regs range :: d.requests ++ r.2) := by
  unfold Answers at hreply
  rw [hi] at hreply
  obtain ⟨hcarry, heax, hecx, hstore, -⟩ := hreply
  have hshort := short_answer hecx
  unfold scanCall at *
  change Option.map _ (Program.run fw _ (if _ then _ else if _ then _ else _)) = _
  rw [if_neg hcarry, if_neg (by simp [heax, hshort]), hstore, addAcpiRange_store rfl,
    Option.map_map]
  rfl

theorem tryE820_stored {d : Descriptor} (hd : ds[0]? = some d)
    (hreply : Answers ds sign 0 { attributes := entryPresent } (fw [] (scanCall rangePtr {} {}))) :
    (tryE820 rangePtr steps).run fw [] =
      ((e820Loop rangePtr steps (fw [] (scanCall rangePtr {} {})).1
        (fw [] (scanCall rangePtr {} {})).2).run fw ([scanCall rangePtr {} {}] ++ d.requests)).map
          fun r => (r.1, scanCall rangePtr {} {} :: d.requests ++ r.2) := by
  unfold Answers at hreply
  rw [hd] at hreply
  obtain ⟨hcarry, heax, hecx, hstore, -⟩ := hreply
  have hshort := short_answer hecx
  unfold scanCall at *
  change Option.map _ (Program.run fw _ (if _ then _ else _)) = _
  rw [if_neg (by simp [hcarry, heax, hshort]), hstore, addAcpiRange_store rfl, Option.map_map]
  rfl

/-- The continuation value in the answer about a descriptor. -/
theorem Answers.ebx_eq_zero {d : Descriptor} {reply : Registers × AddressRange}
    (hd : ds[i]? = some d) (hreply : Answers ds sign i range reply) :
    reply.1.ebx = 0 ↔ i + 1 = ds.length ∧ sign = .zero := by
  unfold Answers at hreply
  rw [hd] at hreply
  exact hreply.2.2.2.2

/-- From a position with a continuation value the loop delivers the rest. The
induction is on the rounds, of which every descriptor takes one. -/
theorem e820Loop_enumerates (hs : Serves fw ds sign) (hpos : Position fw h i regs.ebx)
    (hne : regs.ebx ≠ 0) (hi : i < ds.length) (hsteps : ds.length ≤ steps + i) :
    ∃ qs, (e820Loop rangePtr steps regs range).run fw h = some (true, qs) ∧
      qs.filterMap Request.entry = (ds.drop (i + 1)).filterMap Descriptor.entry ∧
      StopsAtZero fw h qs := by
  induction steps generalizing h i regs range with
  | zero => omega
  | succ steps ih =>
    have hreply := hs.next h i regs rangePtr { range with attributes := entryPresent } hpos hne
    cases hd : ds[i + 1]? with
    | none =>
      have hcarry := hreply
      unfold Answers at hcarry
      rw [hd] at hcarry
      refine ⟨_, e820Loop_carry hcarry, ?_, ⟨by simp, trivial⟩⟩
      rw [List.drop_eq_nil_of_le (List.getElem?_eq_none_iff.mp hd)]
      rfl
    | some d =>
      obtain ⟨hlt, hget⟩ := List.getElem?_eq_some_iff.mp hd
      have hdrop : ds.drop (i + 1) = d :: ds.drop (i + 1 + 1) := by
        rw [List.drop_eq_getElem_cons hlt, hget]
      rw [e820Loop_stored hd hreply]
      by_cases hzero : (fw h (scanCall rangePtr regs range)).1.ebx = 0
      · obtain ⟨hlast, -⟩ := (hreply.ebx_eq_zero hd).mp hzero
        rw [if_neg (not_not.mpr hzero), Program.run_pure]
        refine ⟨_, rfl, ?_, stopsAtZero_round (by simp) trivial⟩
        rw [entries_round, hdrop, entries_cons, List.drop_eq_nil_of_le (by omega)]
        rfl
      · have hnext : Position fw (h ++ [scanCall rangePtr regs range]) (i + 1)
            (fw h (scanCall rangePtr regs range)).1.ebx := .next hpos hne
        rw [if_pos hzero]
        obtain ⟨qs, hrun, hentries, hstops⟩ := ih (position_requests hnext d) hzero hlt (by omega)
        refine ⟨_, by rw [hrun]; rfl, ?_, stopsAtZero_round (fun h => absurd h hzero) hstops⟩
        rw [entries_round, hdrop, entries_cons, hentries]

end Scan

/-- The scan against firmware that serves `ds`: it enumerates them if and only if
there are two or more, or the end of the list is told by the carry flag. -/
theorem tryE820_enumerates_iff (fw : Firmware) (ds : List Descriptor) (sign : LastSign)
    (hs : Serves fw ds sign) (hne : ds ≠ []) (rangePtr steps : ℕ) (hsteps : ds.length ≤ steps) :
    Enumerates fw rangePtr steps ds ↔ 2 ≤ ds.length ∨ sign = .carry := by
  obtain ⟨d, rest, rfl⟩ := List.exists_cons_of_ne_nil hne
  have hreply := hs.first [] {} rangePtr { attributes := entryPresent } rfl
  have hd : (d :: rest)[0]? = some d := rfl
  have hzero := hreply.ebx_eq_zero hd
  rw [Enumerates, tryE820_stored hd hreply]
  constructor
  · rintro ⟨qs, hrun, -, hstops⟩
    by_contra hcond
    obtain ⟨hlen, hsign⟩ := not_or.mp hcond
    have hone : 0 + 1 = (d :: rest).length ∧ sign = .zero := by
      refine ⟨by rw [List.length_cons] at hlen ⊢; omega, ?_⟩
      cases sign with
      | zero => rfl
      | carry => exact absurd rfl hsign
    -- the loop asks again, with the continuation value zero
    obtain ⟨steps, rfl⟩ : ∃ k, steps = k + 1 := ⟨steps - 1, by rw [List.length_cons] at hsteps; omega⟩
    obtain ⟨⟨b, l⟩, hloop, hl⟩ := Option.map_eq_some_iff.mp hrun
    obtain ⟨⟨b', l'⟩, -, hl'⟩ := Option.map_eq_some_iff.mp hloop
    cases hl
    cases hl'
    exact hstops.1 (hzero.mpr hone) _ (List.mem_append_right _ List.mem_cons_self)
  · intro hcond
    have hcont : (fw [] (scanCall rangePtr {} {})).1.ebx ≠ 0 := by
      intro hz
      obtain ⟨hlen, rfl⟩ := hzero.mp hz
      rcases hcond with hcond | hcond
      · omega
      · cases hcond
    have hfirst : Position fw ([] ++ [scanCall rangePtr {} {}]) 0 (fw [] (scanCall rangePtr {} {})).1.ebx :=
      .first rfl
    obtain ⟨qs, hrun, hentries, hstops⟩ := e820Loop_enumerates hs (position_requests hfirst d)
      hcont (Nat.succ_pos _) (by simpa using hsteps)
    refine ⟨_, by rw [← List.nil_append [scanCall rangePtr {} {}], hrun]; rfl, ?_,
      stopsAtZero_round (fun h => absurd h hcont) hstops⟩
    rw [entries_cons]
    refine (entries_round d qs).trans ?_
    rw [hentries]
    rfl

/-- Firmware whose continuation value is the number of the next descriptor. -/
def listFirmware (ds : List Descriptor) (sign : LastSign) : Firmware
  | _, .intRange _ regs range =>
    match ds[regs.ebx.toNat]? with
    | none => ({ eflags := carryFlag }, range)
    | some d =>
      ({ eax := smap
         ecx := if d.attributes.isSome then 24 else 20
         ebx := if regs.ebx.toNat + 1 = ds.length ∧ sign = .zero then 0
           else UInt32.ofNat (regs.ebx.toNat + 1) },
        d.store range)
  | _, .int _ _ => { eflags := carryFlag }
  | _, .load _ => (0 : UInt8)
  | _, .inb _ => (0 : UInt8)
  | _, .outb _ _ => ()
  | _, .addEntry _ => ()
  | _, .clean => ()

section ListFirmware

variable {ds : List Descriptor} {sign : LastSign} {h : List Request} {i : ℕ} {c : UInt32}

theorem listFirmware_ebx {num : UInt8} {regs : Registers} {range : AddressRange}
    (hlen : ds.length < 2^32) (hne : (listFirmware ds sign h (.intRange num regs range)).1.ebx ≠ 0) :
    (listFirmware ds sign h (.intRange num regs range)).1.ebx.toNat = regs.ebx.toNat + 1 := by
  simp only [listFirmware] at hne ⊢
  split at hne
  · exact absurd rfl hne
  · rename_i d hd
    obtain ⟨hlt, -⟩ := List.getElem?_eq_some_iff.mp hd
    dsimp only at hne ⊢
    split_ifs at hne ⊢ with hlast
    · exact absurd rfl hne
    · rw [UInt32.toNat_ofNat', Nat.mod_eq_of_lt (by omega)]

theorem listFirmware_position (hlen : ds.length < 2^32)
    (hpos : Position (listFirmware ds sign) h i c) (hne : c ≠ 0) : c.toNat = i + 1 := by
  induction hpos with
  | first hzero =>
    rw [listFirmware_ebx hlen hne, hzero]
    rfl
  | next _ hprev ih => rw [listFirmware_ebx hlen hne, ih hprev]
  | other _ _ ih => exact ih hne

theorem listFirmware_answers (hlen : ds.length < 2^32) (regs : Registers) (rangePtr : ℕ)
    (range : AddressRange) (hi : regs.ebx.toNat = i) :
    Answers ds sign i range
      (listFirmware ds sign h (.intRange 0x15 (e820Registers regs rangePtr) range)) := by
  subst hi
  have hebx : (e820Registers regs rangePtr).ebx = regs.ebx := rfl
  unfold Answers
  simp only [listFirmware, hebx]
  cases hd : ds[regs.ebx.toNat]? with
  | none => simp [Registers.carry, carryFlag]
  | some d =>
    obtain ⟨hlt, -⟩ := List.getElem?_eq_some_iff.mp hd
    refine ⟨by simp [Registers.carry], rfl, rfl, rfl, ?_⟩
    dsimp only
    split_ifs with hlast
    · simp [hlast]
    · have hne : UInt32.ofNat (regs.ebx.toNat + 1) ≠ 0 := by
        intro hz
        have := congrArg UInt32.toNat hz
        rw [UInt32.toNat_ofNat', Nat.mod_eq_of_lt (by omega)] at this
        exact Nat.succ_ne_zero _ this
      simp only [hne, hlast]

theorem listFirmware_serves (hlen : ds.length < 2^32) : Serves (listFirmware ds sign) ds sign where
  first h regs rangePtr range hzero := by
    refine listFirmware_answers hlen regs rangePtr range ?_
    rw [hzero]
    rfl
  next h i regs rangePtr range hpos hne :=
    listFirmware_answers hlen regs rangePtr range (listFirmware_position hlen hpos hne)

end ListFirmware

/-- Memory below 640 KiB with attributes, and 127 MiB without. -/
def twoDescriptors : List Descriptor :=
  [⟨0, 0x9FC00, 1, some entryPresent⟩, ⟨0x100000, 0x7F00000, 1, none⟩]

theorem twoDescriptors_enumerated :
    Enumerates (listFirmware twoDescriptors .zero) 0x9000 2 twoDescriptors :=
  (tryE820_enumerates_iff (listFirmware twoDescriptors .zero) twoDescriptors .zero
    (listFirmware_serves (by decide)) (by decide) 0x9000 2 le_rfl).mpr (.inl (by decide))

/-- Where the first descriptor is the last, it is asked for and added again. -/
theorem oneDescriptor_twice :
    Serves (listFirmware [⟨0, 0x9FC00, 1, none⟩] .zero) [⟨0, 0x9FC00, 1, none⟩] .zero ∧
      ((tryE820 0x9000 1).run (listFirmware [⟨0, 0x9FC00, 1, none⟩] .zero) []).map
          (fun r => r.2.filterMap Request.entry) =
        some [conventionalEntry 0 0x9FC00, conventionalEntry 0 0x9FC00] ∧
      ¬ Enumerates (listFirmware [⟨0, 0x9FC00, 1, none⟩] .zero) 0x9000 1
        [⟨0, 0x9FC00, 1, none⟩] := by
  refine ⟨listFirmware_serves (by decide), by decide +kernel, ?_⟩
  rintro ⟨qs, hrun, hentries, -⟩
  have htwice : ((tryE820 0x9000 1).run (listFirmware [⟨0, 0x9FC00, 1, none⟩] .zero) []).map
      (fun r => (r.2.filterMap Request.entry).length) = some 2 := by
    decide +kernel
  rw [hrun, Option.map_some, hentries] at htwice
  exact absurd htwice (by decide +kernel)

end Gandr.Bios
