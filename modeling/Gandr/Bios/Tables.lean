import Mathlib.Data.UInt
import Gandr.Bios.Cdrom

/-! The search for firmware tables in low memory: `search_region` and `tables_init`
of `bal/platform/bios/tables.c`. Every checksum runs over a length that the
candidate itself gives. -/

namespace Gandr.Bios.Tables

open Cdrom (Memory read16 read32 read64)

/-- What `rsdt_pointer` and `pc_pointer` hold, apart from their identifiers. -/
structure Pointers where
  /-- `rsdt_pointer.header.length` -/
  rsdtLength : ℕ := 0
  xsdtAddress : ℕ := 0
  rsdtAddress : ℕ := 0
  /-- `pc_pointer.header.length` -/
  pcLength : ℕ := 0
  /-- the bytes of `pc_pointer.mpfp` -/
  mpfp : List UInt8 := List.replicate 16 0
  smbiosEntryPointAddress : ℕ := 0

/-- `sizeof rsdt_pointer` -/
def sizeofRsdtPointer : ℕ := 20

/-- `sizeof pc_pointer` -/
def sizeofPcPointer : ℕ := 28

section Search

variable (mem : Memory)

def checksumTable (table : ℕ) : ℕ → UInt8
  | 0 => 0
  | length + 1 => checksumTable table length + mem (table + length)

/-- The bytes at an address. -/
def bytes (a n : ℕ) : List UInt8 := (List.range n).map fun i => mem (a + i)

/-- `TABLE_SIGNATURE` of four bytes at an address. -/
def signature (a : ℕ) : ℕ :=
  (mem a).toNat * 2^24 + (mem (a + 1)).toNat * 2^16 + (mem (a + 2)).toNat * 2^8 +
    (mem (a + 3)).toNat

def tableSignature (text : String) : ℕ :=
  (text.toList.map Char.toNat).foldl (fun n c => n * 2^8 + c) 0

def rsdpSignatureLow : ℕ := tableSignature "RSD "

def rsdpSignatureHigh : ℕ := tableSignature "PTR "

def mpfpSignature : ℕ := tableSignature "_MP_"

def smbiosEntryPointSignature : ℕ := tableSignature "_SM_"

/-! The fields of the structures, by their offsets. -/

def rsdpRevision (a : ℕ) : ℕ := (mem (a + 15)).toNat

def rsdpRsdtAddress (a : ℕ) : ℕ := read32 mem (a + 16)

def rsdpLength (a : ℕ) : ℕ := read32 mem (a + 20)

def rsdpXsdtAddress (a : ℕ) : ℕ := read64 mem (a + 24)

def mpfpLength (a : ℕ) : ℕ := (mem (a + 8)).toNat

def smbiosLength (a : ℕ) : ℕ := (mem (a + 5)).toNat

/-- A place that the search takes for an RSDP. -/
def isRsdp (a : ℕ) : Bool :=
  signature mem a = rsdpSignatureLow ∧ signature mem (a + 4) = rsdpSignatureHigh ∧
    checksumTable mem a 20 = 0

def isMpfp (a : ℕ) : Bool :=
  signature mem a = mpfpSignature ∧ checksumTable mem a (mpfpLength mem a * 0x10) = 0

def isSmbios (a : ℕ) : Bool :=
  signature mem a = smbiosEntryPointSignature ∧ checksumTable mem a (smbiosLength mem a) = 0

/-- Whether the XSDT address of an RSDP is taken over. -/
def takesXsdt (a : ℕ) : Bool := rsdpRevision mem a > 0 ∧ checksumTable mem a (rsdpLength mem a) = 0

def foundRsdp (a : ℕ) (t : Pointers) : Pointers :=
  { t with
    rsdtLength := sizeofRsdtPointer
    rsdtAddress := rsdpRsdtAddress mem a
    xsdtAddress := if takesXsdt mem a then rsdpXsdtAddress mem a else t.xsdtAddress }

/-- No more is copied than there is room for. -/
def foundMpfp (a : ℕ) (t : Pointers) : Pointers :=
  let n := if mpfpLength mem a * 0x10 > 16 then 16 else mpfpLength mem a * 0x10
  { t with
    pcLength := sizeofPcPointer
    mpfp := bytes mem a n ++ t.mpfp.drop n }

def foundSmbios (a : ℕ) (t : Pointers) : Pointers :=
  { t with pcLength := sizeofPcPointer, smbiosEntryPointAddress := a }

/-- What is still searched for. -/
structure Wanted where
  rsdp : Bool
  mpfp : Bool
  smbios : Bool

/-- The loop of `search_region`, for so many rounds. -/
def searchLoop : ℕ → ℕ → Wanted → Pointers → Pointers
  | 0, _, _, t => t
  | n + 1, region, want, t =>
    if want.rsdp = false ∧ want.mpfp = false ∧ want.smbios = false then t
    else
      let rsdp := want.rsdp && isRsdp mem region
      let t := if rsdp then foundRsdp mem region t else t
      let mpfp := want.mpfp && isMpfp mem region
      let t := if mpfp then foundMpfp mem region t else t
      let smbios := want.smbios && isSmbios mem region
      let t := if smbios then foundSmbios region t else t
      searchLoop n (region + 16)
        { rsdp := want.rsdp && !rsdp, mpfp := want.mpfp && !mpfp
          smbios := want.smbios && !smbios } t

def searchRegion (region length : ℕ) (want : Wanted) (t : Pointers) : Pointers :=
  searchLoop mem ((length + 15) / 16) region want t

/-- `pc_pointer.mpfp.length` -/
def Pointers.mpfpLength (t : Pointers) : UInt8 := (t.mpfp[8]?).getD 0

def ebda : ℕ := read16 mem 0x40E * 2^4

/-- Where the first region starts. -/
def firstRegion (baseMemory : ℕ) : ℕ :=
  if ebda mem ≠ 0 ∧ ebda mem > baseMemory ∧ ebda mem < 0xA0000 then ebda mem else baseMemory

/-- `base_memory - 1024` -/
def lastKilobyte (baseMemory : ℕ) : ℕ := Word.sub 32 baseMemory 1024

def tablesInit (baseMemory : ℕ) : Pointers :=
  let t := searchRegion mem (firstRegion mem baseMemory) 1024
    { rsdp := true, mpfp := true, smbios := false } {}
  let t := searchRegion mem (lastKilobyte baseMemory) 1024
    { rsdp := false, mpfp := t.mpfpLength = 0, smbios := false } t
  let t := searchRegion mem 0xE0000 0x10000
    { rsdp := t.rsdtLength = 0, mpfp := t.mpfpLength = 0, smbios := false } t
  searchRegion mem 0xF0000 0x10000
    { rsdp := t.rsdtLength = 0, mpfp := t.mpfpLength = 0, smbios := true } t

end Search

/-! ### What is found -/

/-- The addresses that the loop looks at. -/
def scan : ℕ → ℕ → List ℕ
  | 0, _ => []
  | n + 1, region => region :: scan n (region + 16)

/-- The addresses of a region that are looked at. -/
def places (region length : ℕ) : List ℕ := scan ((length + 15) / 16) region

section Found

variable (mem : Memory)

/-- What is done with a place, if there is one. -/
def whenFound (f : ℕ → Pointers → Pointers) (o : Option ℕ) (t : Pointers) : Pointers :=
  o.elim t (f · t)

theorem whenFound_or (f : ℕ → Pointers → Pointers) {o o' : Option ℕ} (h : o = none ∨ o' = none)
    (t : Pointers) : whenFound f o' (whenFound f o t) = whenFound f (o.or o') t := by
  rcases h with rfl | rfl
  · rfl
  · cases o <;> rfl

theorem rsdp_mpfp_comm (r m : Option ℕ) (t : Pointers) :
    whenFound (foundRsdp mem) r (whenFound (foundMpfp mem) m t) =
      whenFound (foundMpfp mem) m (whenFound (foundRsdp mem) r t) := by
  cases r <;> cases m <;> rfl

theorem rsdp_smbios_comm (r s : Option ℕ) (t : Pointers) :
    whenFound (foundRsdp mem) r (whenFound foundSmbios s t) =
      whenFound foundSmbios s (whenFound (foundRsdp mem) r t) := by
  cases r <;> cases s <;> rfl

theorem mpfp_smbios_comm (m s : Option ℕ) (t : Pointers) :
    whenFound (foundMpfp mem) m (whenFound foundSmbios s t) =
      whenFound foundSmbios s (whenFound (foundMpfp mem) m t) := by
  cases m <;> cases s <;> rfl

/-- The pointers after at most one place of each kind. -/
def published (r m s : Option ℕ) (t : Pointers) : Pointers :=
  whenFound foundSmbios s (whenFound (foundMpfp mem) m (whenFound (foundRsdp mem) r t))

theorem published_comp {r m s r' m' s' : Option ℕ} (hr : r = none ∨ r' = none)
    (hm : m = none ∨ m' = none) (hs : s = none ∨ s' = none) (t : Pointers) :
    published mem r' m' s' (published mem r m s t) =
      published mem (r.or r') (m.or m') (s.or s') t := by
  rw [published, published, rsdp_smbios_comm, rsdp_mpfp_comm, mpfp_smbios_comm,
    whenFound_or _ hr, whenFound_or _ hm, whenFound_or _ hs, published]

/-- The first place among those looked at, if it is searched for. -/
def firstOf (want : Bool) (l : List ℕ) (p : ℕ → Bool) : Option ℕ :=
  if want then l.find? p else none

theorem firstOf_cons (want : Bool) (a : ℕ) (l : List ℕ) (p : ℕ → Bool) :
    firstOf want (a :: l) p = (if want && p a then some a else none).or
      (firstOf (want && !(want && p a)) l p) := by
  cases want <;> cases hp : p a <;> simp [firstOf, hp]

theorem firstOf_stops (want : Bool) (a : ℕ) (l : List ℕ) (p : ℕ → Bool) :
    (if want && p a then some a else none) = none ∨
      firstOf (want && !(want && p a)) l p = none := by
  cases want <;> cases hp : p a <;> simp [firstOf]

/-- The loop finds the first place of each kind. -/
theorem searchLoop_eq (n region : ℕ) (want : Wanted) (t : Pointers) :
    searchLoop mem n region want t =
      published mem (firstOf want.rsdp (scan n region) (isRsdp mem))
        (firstOf want.mpfp (scan n region) (isMpfp mem))
        (firstOf want.smbios (scan n region) (isSmbios mem)) t := by
  induction n generalizing region want t with
  | zero => simp [searchLoop, scan, firstOf, published, whenFound]
  | succ n ih =>
    rw [searchLoop]
    split
    · rename_i hnone
      simp [hnone, firstOf, published, whenFound]
    · simp only [ih, scan, firstOf_cons]
      rw [← published_comp mem (firstOf_stops ..) (firstOf_stops ..) (firstOf_stops ..)]
      congr 1
      simp only [published, whenFound]
      cases want.rsdp && isRsdp mem region <;> cases want.mpfp && isMpfp mem region <;>
        cases want.smbios && isSmbios mem region <;> rfl

/-! ### One region after the other -/

/-- The RSDP fields after a search of the places `rs`. -/
structure RsdpFields (t : Pointers) (rs : List ℕ) : Prop where
  length : t.rsdtLength = if (rs.find? (isRsdp mem)).isSome then sizeofRsdtPointer else 0
  rsdt : t.rsdtAddress = (rs.find? (isRsdp mem)).elim 0 (rsdpRsdtAddress mem)
  xsdt : t.xsdtAddress = (rs.find? (isRsdp mem)).elim 0 fun a =>
    if takesXsdt mem a then rsdpXsdtAddress mem a else 0

def hasLength (a : ℕ) : Bool := mpfpLength mem a ≠ 0

/-- The copied structure when `ms` are the places found so far: the first one of
non-zero length. -/
def mpfpOf (ms : List ℕ) : List UInt8 :=
  (ms.find? (hasLength mem)).elim (List.replicate 16 0) fun a => bytes mem a 16

/-- The other fields after the MPFP places `ms` and the SMBIOS place `s`. -/
structure PcFields (t : Pointers) (ms : List ℕ) (s : Option ℕ) : Prop where
  length : t.pcLength ≠ 0 ↔ ms ≠ [] ∨ s.isSome
  mpfp : t.mpfp = mpfpOf mem ms
  smbios : t.smbiosEntryPointAddress = s.getD 0

section Fields

variable (r m s : Option ℕ) (t : Pointers)

@[simp] theorem published_rsdtLength : (published mem r m s t).rsdtLength =
    if r.isSome then sizeofRsdtPointer else t.rsdtLength := by
  cases r <;> cases m <;> cases s <;> rfl

@[simp] theorem published_rsdtAddress :
    (published mem r m s t).rsdtAddress = r.elim t.rsdtAddress (rsdpRsdtAddress mem) := by
  cases r <;> cases m <;> cases s <;> rfl

@[simp] theorem published_xsdtAddress : (published mem r m s t).xsdtAddress =
    r.elim t.xsdtAddress fun a =>
      if takesXsdt mem a then rsdpXsdtAddress mem a else t.xsdtAddress := by
  cases r <;> cases m <;> cases s <;> rfl

@[simp] theorem published_pcLength : (published mem r m s t).pcLength =
    if m.isSome ∨ s.isSome then sizeofPcPointer else t.pcLength := by
  cases r <;> cases m <;> cases s <;> rfl

@[simp] theorem published_mpfp :
    (published mem r m s t).mpfp = m.elim t.mpfp fun a => (foundMpfp mem a t).mpfp := by
  cases r <;> cases m <;> cases s <;> rfl

@[simp] theorem published_smbios : (published mem r m s t).smbiosEntryPointAddress =
    s.getD t.smbiosEntryPointAddress := by
  cases r <;> cases m <;> cases s <;> rfl

end Fields

variable {mem} {t : Pointers} {rs ms : List ℕ}

theorem RsdpFields.skip (h : RsdpFields mem t rs) (m s : Option ℕ) :
    RsdpFields mem (published mem none m s t) rs :=
  ⟨by simp [h.length], by simp [h.rsdt], by simp [h.xsdt]⟩

/-- A region is searched as long as nothing is found. -/
theorem RsdpFields.step (h : RsdpFields mem t rs) (l : List ℕ) (m s : Option ℕ) :
    RsdpFields mem
      (published mem (firstOf (t.rsdtLength = 0) l (isRsdp mem)) m s t) (rs ++ l) := by
  cases hfind : rs.find? (isRsdp mem) with
  | some a =>
    have hlen : ¬ t.rsdtLength = 0 := by simp [h.length, hfind, sizeofRsdtPointer]
    have happend : (rs ++ l).find? (isRsdp mem) = some a := by
      rw [List.find?_append, hfind]
      rfl
    refine ⟨?_, ?_, ?_⟩ <;> rw [happend]
    · simp [firstOf, h.length, hfind]
    · simp [firstOf, hlen, h.rsdt, hfind]
    · simp [firstOf, hlen, h.xsdt, hfind]
  | none =>
    have hlen : t.rsdtLength = 0 := by simp [h.length, hfind]
    have happend : (rs ++ l).find? (isRsdp mem) = l.find? (isRsdp mem) := by
      rw [List.find?_append, hfind]
      rfl
    refine ⟨?_, ?_, ?_⟩ <;> rw [happend]
    · simp [firstOf, hlen]
    · simp [firstOf, hlen, h.rsdt, hfind]
    · simp [firstOf, hlen, h.xsdt, hfind]

theorem mpfpOf_length (ms : List ℕ) :
    ((mpfpOf mem ms)[8]?).getD 0 = 0 ↔ ms.find? (hasLength mem) = none := by
  rw [mpfpOf]
  cases hfind : ms.find? (hasLength mem) with
  | none => simp
  | some a =>
    have ha : mpfpLength mem a ≠ 0 := by simpa [hasLength] using List.find?_some hfind
    have hne : mem (a + 8) ≠ 0 := fun h => ha (by rw [mpfpLength, h]; rfl)
    simp [bytes, hne]

/-- A structure without length is not copied, any other one is. -/
theorem foundMpfp_mpfp (a : ℕ) (ht : t.mpfp.length = 16) : (foundMpfp mem a t).mpfp =
    if hasLength mem a then bytes mem a 16 else t.mpfp := by
  rcases Nat.eq_zero_or_pos (mpfpLength mem a) with hzero | hpos
  · simp [foundMpfp, hasLength, hzero, bytes]
  · have hn : (if mpfpLength mem a * 0x10 > 16 then 16 else mpfpLength mem a * 0x10) = 16 := by
      split <;> omega
    have hlen : hasLength mem a = true := by simpa [hasLength] using Nat.ne_of_gt hpos
    rw [foundMpfp, if_pos hlen]
    simp only [hn]
    rw [List.drop_eq_nil_of_le (le_of_eq ht), List.append_nil]

/-- A region is searched until a structure is copied. -/
theorem PcFields.step {s : Option ℕ} (h : PcFields mem t ms none) (l : List ℕ) (r : Option ℕ) :
    PcFields mem (published mem r (firstOf (t.mpfpLength = 0) l (isMpfp mem)) s t)
      (ms ++ (l.find? (isMpfp mem)).toList) s := by
  have hlength : t.mpfpLength = 0 ↔ ms.find? (hasLength mem) = none := by
    rw [Pointers.mpfpLength, h.mpfp, mpfpOf_length]
  have hpc : t.pcLength = 0 ↔ ms = [] := by simpa [not_iff_not] using h.length
  cases hfind : ms.find? (hasLength mem) with
  | some a =>
    have hlen : ¬ t.mpfpLength = 0 := by
      rw [hlength, hfind]
      simp
    have hms : ms ≠ [] := by
      rintro rfl
      simp at hfind
    refine ⟨?_, ?_, ?_⟩
    · have : ¬ t.pcLength = 0 := fun hzero => hms (hpc.mp hzero)
      simp [firstOf, hlen, hms]
      split <;> simp [this, sizeofPcPointer]
    · simp [firstOf, hlen, h.mpfp, mpfpOf, hfind, List.find?_append]
    · simp [h.smbios]
  | none =>
    have hlen : t.mpfpLength = 0 := hlength.mpr hfind
    have hzero : t.mpfp = List.replicate 16 0 := by rw [h.mpfp, mpfpOf, hfind]; rfl
    have hfirst : firstOf (t.mpfpLength = 0) l (isMpfp mem) = l.find? (isMpfp mem) := by
      simp [firstOf, hlen]
    rw [hfirst]
    refine ⟨?_, ?_, by simp [h.smbios]⟩
    · cases l.find? (isMpfp mem) <;> cases s <;> simp [sizeofPcPointer, hpc]
    · rw [published_mpfp, mpfpOf, List.find?_append, hfind]
      cases l.find? (isMpfp mem) with
      | none => simp [hzero]
      | some a =>
        have hcopy : (foundMpfp mem a t).mpfp = _ := foundMpfp_mpfp a (by rw [hzero]; rfl)
        cases hl : hasLength mem a <;> simp [hcopy, hl, hzero]

/-- A search for everything that is not found yet. -/
theorem searchRegion_fields (hr : RsdpFields mem t rs) (hp : PcFields mem t ms none)
    (region length : ℕ) (smbios : Bool) :
    RsdpFields mem (searchRegion mem region length
        { rsdp := t.rsdtLength = 0, mpfp := t.mpfpLength = 0, smbios := smbios } t)
        (rs ++ places region length) ∧
      PcFields mem (searchRegion mem region length
        { rsdp := t.rsdtLength = 0, mpfp := t.mpfpLength = 0, smbios := smbios } t)
        (ms ++ ((places region length).find? (isMpfp mem)).toList)
        (firstOf smbios (places region length) (isSmbios mem)) := by
  rw [searchRegion, searchLoop_eq]
  exact ⟨hr.step _ _ _, hp.step _ _⟩

theorem searchRegion_mpfp (hr : RsdpFields mem t rs) (hp : PcFields mem t ms none)
    (region length : ℕ) :
    RsdpFields mem (searchRegion mem region length
        { rsdp := false, mpfp := t.mpfpLength = 0, smbios := false } t) rs ∧
      PcFields mem (searchRegion mem region length
        { rsdp := false, mpfp := t.mpfpLength = 0, smbios := false } t)
        (ms ++ ((places region length).find? (isMpfp mem)).toList) none := by
  rw [searchRegion, searchLoop_eq]
  exact ⟨hr.skip _ _, hp.step _ _⟩

end Found

/-! ### The whole search -/

section Init

variable (mem : Memory) (baseMemory : ℕ)

def firstPlaces : List ℕ := places (firstRegion mem baseMemory) 1024

def kilobytePlaces : List ℕ := places (lastKilobyte baseMemory) 1024

def lowRomPlaces : List ℕ := places 0xE0000 0x10000

def highRomPlaces : List ℕ := places 0xF0000 0x10000

/-- The first place with the signature and the checksum of an RSDP. -/
def rsdpPlace : Option ℕ :=
  (firstPlaces mem baseMemory ++ lowRomPlaces ++ highRomPlaces).find? (isRsdp mem)

/-- The first place of each region with the signature and the checksum of an MPFP. -/
def mpfpPlaces : List ℕ :=
  ((firstPlaces mem baseMemory).find? (isMpfp mem)).toList ++
    ((kilobytePlaces baseMemory).find? (isMpfp mem)).toList ++
    (lowRomPlaces.find? (isMpfp mem)).toList ++ (highRomPlaces.find? (isMpfp mem)).toList

/-- The first place with the signature and the checksum of an SMBIOS entry point. -/
def smbiosPlace : Option ℕ := highRomPlaces.find? (isSmbios mem)

/-- An SMBIOS entry point with a checksum over at least its fixed part. -/
structure SmbiosAt (a : ℕ) : Prop where
  signature : signature mem a = smbiosEntryPointSignature
  long : 0x1F ≤ smbiosLength mem a
  checksum : checksumTable mem a (smbiosLength mem a) = 0

theorem tablesInit_fields :
    RsdpFields mem (tablesInit mem baseMemory)
        (firstPlaces mem baseMemory ++ lowRomPlaces ++ highRomPlaces) ∧
      PcFields mem (tablesInit mem baseMemory) (mpfpPlaces mem baseMemory) (smbiosPlace mem) := by
  have hr₀ : RsdpFields mem {} [] := ⟨rfl, rfl, rfl⟩
  have hp₀ : PcFields mem {} [] none := ⟨by simp, rfl, rfl⟩
  obtain ⟨hr₁, hp₁⟩ := searchRegion_fields hr₀ hp₀ (firstRegion mem baseMemory) 1024 false
  rw [List.nil_append] at hr₁ hp₁
  obtain ⟨hr₂, hp₂⟩ := searchRegion_mpfp hr₁ hp₁ (lastKilobyte baseMemory) 1024
  obtain ⟨hr₃, hp₃⟩ := searchRegion_fields hr₂ hp₂ 0xE0000 0x10000 false
  exact searchRegion_fields hr₃ hp₃ 0xF0000 0x10000 true

/-- What the claim says of the published pointers. -/
structure Validated : Prop where
  xsdt : (tablesInit mem baseMemory).xsdtAddress ≠ 0 → ∃ a, rsdpPlace mem baseMemory = some a ∧
    (tablesInit mem baseMemory).xsdtAddress = rsdpXsdtAddress mem a ∧ 36 ≤ rsdpLength mem a ∧
    checksumTable mem a (rsdpLength mem a) = 0
  mpfp : (tablesInit mem baseMemory).mpfp ≠ List.replicate 16 0 →
    ∃ a ∈ firstPlaces mem baseMemory ++ kilobytePlaces baseMemory ++ lowRomPlaces ++
        highRomPlaces,
      (tablesInit mem baseMemory).mpfp = bytes mem a 16 ∧ signature mem a = mpfpSignature ∧
      mpfpLength mem a ≠ 0 ∧ checksumTable mem a (mpfpLength mem a * 0x10) = 0
  smbios : (tablesInit mem baseMemory).smbiosEntryPointAddress ≠ 0 →
    SmbiosAt mem (tablesInit mem baseMemory).smbiosEntryPointAddress
  located : (tablesInit mem baseMemory).pcLength ≠ 0 ↔
    (tablesInit mem baseMemory).mpfp ≠ List.replicate 16 0 ∨
      (tablesInit mem baseMemory).smbiosEntryPointAddress ≠ 0 ∧
        SmbiosAt mem (tablesInit mem baseMemory).smbiosEntryPointAddress

/-- No structure that is accepted is too short for its checksum to mean anything. -/
structure LongEnough : Prop where
  rsdp : ∀ a, rsdpPlace mem baseMemory = some a → takesXsdt mem a = true →
    rsdpXsdtAddress mem a ≠ 0 → 36 ≤ rsdpLength mem a
  smbios : ∀ a, smbiosPlace mem = some a → 0x1F ≤ smbiosLength mem a
  mpfp : smbiosPlace mem = none → mpfpPlaces mem baseMemory = [] ∨
    ∃ a ∈ mpfpPlaces mem baseMemory, mpfpLength mem a ≠ 0

variable {mem baseMemory}

theorem mem_scan {n region a : ℕ} (h : a ∈ scan n region) : region ≤ a := by
  induction n generalizing region with
  | zero => simp [scan] at h
  | succ n ih =>
    rcases List.mem_cons.mp h with rfl | h
    · exact le_rfl
    · exact (Nat.le_add_right _ _).trans (ih h)

theorem smbiosPlace_pos {a : ℕ} (h : smbiosPlace mem = some a) : a ≠ 0 := by
  have := mem_scan (List.mem_of_find?_eq_some h)
  omega

theorem mem_mpfpPlaces {a : ℕ} (h : a ∈ mpfpPlaces mem baseMemory) :
    a ∈ firstPlaces mem baseMemory ++ kilobytePlaces baseMemory ++ lowRomPlaces ++
        highRomPlaces ∧ isMpfp mem a = true := by
  simp only [mpfpPlaces, List.mem_append, Option.mem_toList] at h ⊢
  rcases h with ((h | h) | h) | h
  all_goals
    have hmem := List.mem_of_find?_eq_some h
    have hp := List.find?_some h
    simp [hmem, hp]

/-- A structure is copied where a place of non-zero length is found. -/
theorem mpfpOf_ne_zero {ms : List ℕ} :
    mpfpOf mem ms ≠ List.replicate 16 0 ↔ ∃ a ∈ ms, mpfpLength mem a ≠ 0 := by
  constructor
  · intro hne
    by_contra hall
    have hnone : ms.find? (hasLength mem) = none := by
      rw [List.find?_eq_none]
      intro a ha hlen
      exact hall ⟨a, ha, by simpa [hasLength] using hlen⟩
    exact hne (by rw [mpfpOf, hnone]; rfl)
  · rintro ⟨a, ha, hlen⟩ hzero
    have hnone : ms.find? (hasLength mem) = none := by
      rw [← mpfpOf_length, hzero]
      rfl
    rw [List.find?_eq_none] at hnone
    exact hnone a ha (by simpa [hasLength] using hlen)

theorem tablesInit_mpfp (hne : (tablesInit mem baseMemory).mpfp ≠ List.replicate 16 0) :
    ∃ a ∈ firstPlaces mem baseMemory ++ kilobytePlaces baseMemory ++ lowRomPlaces ++
        highRomPlaces,
      (tablesInit mem baseMemory).mpfp = bytes mem a 16 ∧ signature mem a = mpfpSignature ∧
      mpfpLength mem a ≠ 0 ∧ checksumTable mem a (mpfpLength mem a * 0x10) = 0 := by
  obtain ⟨-, hpc⟩ := tablesInit_fields mem baseMemory
  have hfields := hpc.mpfp
  cases hfind : (mpfpPlaces mem baseMemory).find? (hasLength mem) with
  | none =>
    rw [mpfpOf, hfind] at hfields
    exact absurd hfields hne
  | some a =>
    rw [mpfpOf, hfind] at hfields
    obtain ⟨hplace, hp⟩ := mem_mpfpPlaces (List.mem_of_find?_eq_some hfind)
    have hlen : mpfpLength mem a ≠ 0 := by simpa [hasLength] using List.find?_some hfind
    have hp : signature mem a = mpfpSignature ∧
        checksumTable mem a (mpfpLength mem a * 0x10) = 0 := by simpa [isMpfp] using hp
    exact ⟨a, hplace, hfields, hp.1, hlen, hp.2⟩

theorem tablesInit_mpfp_ne_zero :
    (tablesInit mem baseMemory).mpfp ≠ List.replicate 16 0 ↔
      ∃ a ∈ mpfpPlaces mem baseMemory, mpfpLength mem a ≠ 0 := by
  rw [(tablesInit_fields mem baseMemory).2.mpfp, mpfpOf_ne_zero]

theorem tablesInit_smbios {a : ℕ} (h : smbiosPlace mem = some a) :
    (tablesInit mem baseMemory).smbiosEntryPointAddress = a := by
  rw [(tablesInit_fields mem baseMemory).2.smbios, h]
  rfl

theorem tablesInit_smbios_ne_zero :
    (tablesInit mem baseMemory).smbiosEntryPointAddress ≠ 0 ↔ (smbiosPlace mem).isSome := by
  rw [(tablesInit_fields mem baseMemory).2.smbios]
  cases hs : smbiosPlace mem with
  | none => simp
  | some a => simpa using smbiosPlace_pos hs

theorem tablesInit_xsdt {a : ℕ} (h : rsdpPlace mem baseMemory = some a) :
    (tablesInit mem baseMemory).xsdtAddress =
      if takesXsdt mem a then rsdpXsdtAddress mem a else 0 := by
  rw [(tablesInit_fields mem baseMemory).1.xsdt, ← rsdpPlace, h]
  rfl

theorem Validated.longEnough (hv : Validated mem baseMemory) : LongEnough mem baseMemory where
  rsdp a ha htakes hne := by
    have hx : (tablesInit mem baseMemory).xsdtAddress = rsdpXsdtAddress mem a := by
      rw [tablesInit_xsdt ha, if_pos htakes]
    obtain ⟨b, hb, -, hlen, -⟩ := hv.xsdt (by rwa [hx])
    obtain rfl := Option.some.inj (ha.symm.trans hb)
    exact hlen
  smbios a ha := by
    have hat := hv.smbios (tablesInit_smbios_ne_zero.mpr (by rw [ha]; rfl))
    rw [tablesInit_smbios ha] at hat
    exact hat.long
  mpfp hnone := by
    by_cases hms : mpfpPlaces mem baseMemory = []
    · exact .inl hms
    · have hlen := (tablesInit_fields mem baseMemory).2.length.mpr (.inl hms)
      rcases hv.located.mp hlen with hne | ⟨hne, -⟩
      · exact .inr (tablesInit_mpfp_ne_zero.mp hne)
      · rw [tablesInit_smbios_ne_zero, hnone] at hne
        cases hne

theorem LongEnough.smbiosAt (hl : LongEnough mem baseMemory)
    (hne : (tablesInit mem baseMemory).smbiosEntryPointAddress ≠ 0) :
    SmbiosAt mem (tablesInit mem baseMemory).smbiosEntryPointAddress := by
  obtain ⟨a, ha⟩ := Option.isSome_iff_exists.mp (tablesInit_smbios_ne_zero.mp hne)
  rw [tablesInit_smbios ha]
  have hp : signature mem a = smbiosEntryPointSignature ∧
      checksumTable mem a (smbiosLength mem a) = 0 := by
    simpa [isSmbios] using List.find?_some ha
  exact ⟨hp.1, hl.smbios a ha, hp.2⟩

theorem LongEnough.xsdt (hl : LongEnough mem baseMemory)
    (hne : (tablesInit mem baseMemory).xsdtAddress ≠ 0) :
    ∃ a, rsdpPlace mem baseMemory = some a ∧
      (tablesInit mem baseMemory).xsdtAddress = rsdpXsdtAddress mem a ∧
      36 ≤ rsdpLength mem a ∧ checksumTable mem a (rsdpLength mem a) = 0 := by
  cases ha : rsdpPlace mem baseMemory with
  | none =>
    rw [(tablesInit_fields mem baseMemory).1.xsdt, ← rsdpPlace, ha] at hne
    exact absurd rfl hne
  | some a =>
    rw [tablesInit_xsdt ha] at hne ⊢
    by_cases htakes : takesXsdt mem a = true
    · rw [if_pos htakes] at hne ⊢
      have hsum : rsdpRevision mem a > 0 ∧ checksumTable mem a (rsdpLength mem a) = 0 := by
        simpa [takesXsdt] using htakes
      exact ⟨a, rfl, rfl, hl.rsdp a ha htakes hne, hsum.2⟩
    · rw [if_neg htakes] at hne
      exact absurd rfl hne

theorem LongEnough.validated (hl : LongEnough mem baseMemory) : Validated mem baseMemory where
  xsdt := hl.xsdt
  mpfp := tablesInit_mpfp
  smbios := hl.smbiosAt
  located := by
    have hlength := (tablesInit_fields mem baseMemory).2.length
    constructor
    · intro hlen
      cases hs : smbiosPlace mem with
      | none =>
        have hms := (hlength.mp hlen).resolve_right (by simp [hs])
        exact .inl (tablesInit_mpfp_ne_zero.mpr ((hl.mpfp hs).resolve_left hms))
      | some a =>
        have hne : (tablesInit mem baseMemory).smbiosEntryPointAddress ≠ 0 :=
          tablesInit_smbios_ne_zero.mpr (by rw [hs]; rfl)
        exact .inr ⟨hne, hl.smbiosAt hne⟩
    · rintro (hne | ⟨hne, -⟩)
      · obtain ⟨a, ha, -⟩ := tablesInit_mpfp_ne_zero.mp hne
        exact hlength.mpr (.inl (List.ne_nil_of_mem ha))
      · exact hlength.mpr (.inr (tablesInit_smbios_ne_zero.mp hne))

/-- The pointers are validated exactly when the accepted structures are long
enough. -/
theorem tablesInit_validated (mem : Memory) (baseMemory : ℕ) :
    Validated mem baseMemory ↔ LongEnough mem baseMemory :=
  ⟨Validated.longEnough, LongEnough.validated⟩

end Init

/-- A memory with nothing but the signature of an SMBIOS entry point, whose length
is 0. -/
def bareSignature : Memory := fun a =>
  if a = 0xF0000 then 0x5F else if a = 0xF0001 then 0x53 else if a = 0xF0002 then 0x4D
  else if a = 0xF0003 then 0x5F else 0

theorem bareSignature_not_validated :
    ¬ ∀ (mem : Memory) (baseMemory : ℕ), Validated mem baseMemory := by
  intro hall
  have hplace : smbiosPlace bareSignature = some 0xF0000 :=
    List.find?_cons_of_pos (by decide +kernel)
  have hsmbios : (tablesInit bareSignature 0x9FC00).smbiosEntryPointAddress = 0xF0000 :=
    tablesInit_smbios hplace
  have hlong := ((hall bareSignature 0x9FC00).smbios (by rw [hsmbios]; decide)).long
  rw [hsmbios] at hlong
  exact absurd hlong (by decide +kernel)

/-! ### The RSDP alone -/

section Rsdp

variable (mem : Memory) (baseMemory : ℕ)

/-- The text `RSD PTR `. -/
def rsdPtr : List UInt8 := [0x52, 0x53, 0x44, 0x20, 0x50, 0x54, 0x52, 0x20]

/-- The signature, and a sum of zero over the 20 bytes of the first version. -/
structure RsdpAt (a : ℕ) : Prop where
  text : bytes mem a 8 = rsdPtr
  sum : (bytes mem a 20).sum = 0

instance (a : ℕ) : Decidable (RsdpAt mem a) :=
  decidable_of_iff (bytes mem a 8 = rsdPtr ∧ (bytes mem a 20).sum = 0)
    ⟨fun h => ⟨h.1, h.2⟩, fun h => ⟨h.1, h.2⟩⟩

/-- The 16-byte steps of the EBDA, or of the end of base memory, and of the ROM. -/
def rsdpSteps : List ℕ :=
  (List.range 64).map (fun i => firstRegion mem baseMemory + 16 * i) ++
    (List.range 0x2000).map fun i => 0xE0000 + 16 * i

theorem scan_eq_map (n region : ℕ) :
    scan n region = (List.range n).map fun i => region + 16 * i := by
  induction n generalizing region with
  | zero => rfl
  | succ n ih =>
    rw [scan, ih, List.range_succ_eq_map, List.map_cons, List.map_map, mul_zero, add_zero]
    congr 1
    refine List.map_congr_left fun i _ => ?_
    simp only [Function.comp_apply]
    omega

theorem scan_add (n m region : ℕ) :
    scan n region ++ scan m (region + 16 * n) = scan (n + m) region := by
  rw [scan_eq_map, scan_eq_map, scan_eq_map, List.range_add, List.map_append, List.map_map]
  congr 1
  refine List.map_congr_left fun i _ => ?_
  simp only [Function.comp_apply]
  omega

theorem rsdpSteps_eq :
    firstPlaces mem baseMemory ++ lowRomPlaces ++ highRomPlaces = rsdpSteps mem baseMemory := by
  have hrom : lowRomPlaces ++ highRomPlaces = scan 0x2000 0xE0000 :=
    scan_add 0x1000 0x1000 0xE0000
  rw [List.append_assoc, hrom, firstPlaces, places, scan_eq_map, scan_eq_map]
  rfl

theorem checksumTable_eq_sum (a n : ℕ) : checksumTable mem a n = (bytes mem a n).sum := by
  induction n with
  | zero => rfl
  | succ n ih =>
    rw [checksumTable, ih, bytes, bytes, List.range_succ, List.map_append, List.sum_append]
    simp

/-- Two signatures of four bytes are one text of eight. -/
theorem signature_rsdp (a : ℕ) :
    signature mem a = rsdpSignatureLow ∧ signature mem (a + 4) = rsdpSignatureHigh ↔
      bytes mem a 8 = rsdPtr := by
  have hlow : rsdpSignatureLow = 0x52534420 := by decide
  have hhigh : rsdpSignatureHigh = 0x50545220 := by decide
  have hbyte : ∀ i, (mem (a + i)).toNat < 256 := fun i => (mem (a + i)).toNat_lt
  have heq : ∀ (i : ℕ) (b : UInt8), mem i = b ↔ (mem i).toNat = b.toNat :=
    fun i b => UInt8.toNat_inj.symm
  have h₀ : (mem a).toNat < 256 := hbyte 0
  have h₁ := hbyte 1
  have h₂ := hbyte 2
  have h₃ := hbyte 3
  have h₄ := hbyte 4
  have h₅ := hbyte 5
  have h₆ := hbyte 6
  have h₇ := hbyte 7
  simp only [bytes, rsdPtr, List.range_succ, List.range_zero, List.nil_append, List.cons_append,
    List.map_cons, List.map_nil, List.cons.injEq, and_true, heq, signature, hlow, hhigh, add_assoc,
    Nat.reduceAdd, add_zero]
  simp only [UInt8.reduceToNat]
  omega

theorem isRsdp_iff (a : ℕ) : isRsdp mem a = true ↔ RsdpAt mem a := by
  rw [isRsdp, decide_eq_true_iff, ← and_assoc, signature_rsdp, checksumTable_eq_sum]
  exact ⟨fun h => ⟨h.1, h.2⟩, fun h => ⟨h.1, h.2⟩⟩

/-- Whatever else is found on the way, the RSDP that is published is the first
one of the scan, and there is one exactly if the length is set. -/
theorem tablesInit_rsdp :
    ((tablesInit mem baseMemory).rsdtLength ≠ 0 ↔
      ∃ a ∈ rsdpSteps mem baseMemory, RsdpAt mem a) ∧
    (tablesInit mem baseMemory).rsdtAddress =
      ((rsdpSteps mem baseMemory).find? fun a => RsdpAt mem a).elim 0 (rsdpRsdtAddress mem) := by
  have hfields := (tablesInit_fields mem baseMemory).1
  rw [rsdpSteps_eq] at hfields
  have hfind : (rsdpSteps mem baseMemory).find? (isRsdp mem) =
      (rsdpSteps mem baseMemory).find? fun a => RsdpAt mem a := by
    congr 1
    funext a
    rw [Bool.eq_iff_iff, isRsdp_iff, decide_eq_true_iff]
  constructor
  · rw [hfields.length, hfind]
    simp [sizeofRsdtPointer]
  · rw [hfields.rsdt, hfind]

end Rsdp

end Gandr.Bios.Tables
