import Gandr.Mmap.PageTypes
import Gandr.Mmap.Refill

/-! The memory map of a flattened device tree, as `dt_platform_init_fdt` of
`bal/device/dt/dt_system.c` makes it on a little-endian processor. What
`libfdt` reads from the blob is a parameter; so is the enumeration of the
devices, which takes its memory from the C library. -/

namespace Gandr.DeviceTree

open Mmap

/-- A property: its length and the bytes from its data on. -/
structure Property where
  memlen : ℕ
  data : ℕ → UInt8

/-- What `libfdt` finds in a blob; an error is its `fdt_strerror` text. -/
structure Fdt where
  /-- the error of `fdt_check_header`, if any -/
  header : Option String
  /-- `fdt_get_mem_rsv` for every index -/
  reservations : List (ℕ × ℕ)
  addressCells : ℕ
  sizeCells : ℕ
  /-- property `reg` of the node `memory` -/
  memory : Except String Property

/-- `p[i]`, loaded as a little-endian word. -/
def Property.word (prop : Property) (i : ℕ) : ℕ :=
  (prop.data (4 * i)).toNat + (prop.data (4 * i + 1)).toNat * 2^8 +
    (prop.data (4 * i + 2)).toNat * 2^16 + (prop.data (4 * i + 3)).toNat * 2^24

/-- Byte `k` of a word. -/
def byte (x k : ℕ) : ℕ := x / 2^(8 * k) % 2^8

def fdt32ToCpu (x : ℕ) : ℕ :=
  byte x 0 * 2^24 + byte x 1 * 2^16 + byte x 2 * 2^8 + byte x 3

def fdt64ToCpu (x : ℕ) : ℕ :=
  byte x 0 * 2^56 + byte x 1 * 2^48 + byte x 2 * 2^40 + byte x 3 * 2^32 +
    byte x 4 * 2^24 + byte x 5 * 2^16 + byte x 6 * 2^8 + byte x 7

/-- The value of `cells` cells from `p[i]` on; other counts are read as 0. -/
def readCells (prop : Property) (cells i : ℕ) : ℕ :=
  if cells = 1 then fdt32ToCpu (prop.word i)
  else if cells = 2 then fdt64ToCpu (prop.word (i + 1) * 2^32 + prop.word i)
  else 0

def reservedEntry (rsv : ℕ × ℕ) : MemoryMapEntry :=
  { type := .reservedMemoryType, physicalStart := rsv.1, virtualStart := rsv.1, size := rsv.2 }

def memoryEntry (range : ℕ × ℕ) : MemoryMapEntry :=
  { type := .conventionalMemory, physicalStart := range.1, virtualStart := range.1
    size := range.2 }

/-- The loop over the memory reservations. -/
def reservationLoop (T : Target) (fuel : ℕ) : List (ℕ × ℕ) → State → Outcome
  | [], s => .returned s
  | rsv :: rest, s =>
    (mmapAddEntry T fuel (reservedEntry rsv) s).andThen (reservationLoop T fuel rest)

/-- The loop over the property `reg`, for at most `steps` rounds. -/
def memoryLoop (T : Target) (fuel : ℕ) (addressCells sizeCells : ℕ) (prop : Property) :
    ℕ → ℕ → State → Outcome
  | 0, i, s => if i < prop.memlen / 4 then .outOfFuel s else .returned s
  | steps + 1, i, s =>
    if i < prop.memlen / 4 then
      (mmapAddEntry T fuel (memoryEntry (readCells prop addressCells i,
        readCells prop sizeCells (i + addressCells))) s).andThen
        (memoryLoop T fuel addressCells sizeCells prop steps (i + (addressCells + sizeCells)))
    else .returned s

def dtPlatformInitFdt (T : Target) (fuel : ℕ) (fdt : Fdt) (addDeviceFdt : State → Outcome)
    (s : State) : Outcome :=
  match fdt.header with
  | some error => .panicked ("Bad FDT: " ++ error ++ "\n") s
  | none =>
    (reservationLoop T fuel fdt.reservations s).andThen fun s =>
    match fdt.memory with
    | .error error => .panicked ("Unable to locate memory node (" ++ error ++ ")\n") s
    | .ok prop =>
      (memoryLoop T fuel fdt.addressCells fdt.sizeCells prop (prop.memlen / 4) 0 s).andThen
        addDeviceFdt

section Cells

variable (prop : Property)

/-- The big-endian value of the cell at `i`. -/
def Property.cell (i : ℕ) : ℕ :=
  (prop.data (4 * i)).toNat * 2^24 + (prop.data (4 * i + 1)).toNat * 2^16 +
    (prop.data (4 * i + 2)).toNat * 2^8 + (prop.data (4 * i + 3)).toNat

/-- The value that a device tree stores in `cells` cells. -/
def Property.value : ℕ → ℕ → ℕ
  | 0, _ => 0
  | cells + 1, i => prop.cell i * 2^(32 * cells) + value cells (i + 1)

theorem fdt32ToCpu_word (i : ℕ) : fdt32ToCpu (prop.word i) = prop.cell i := by
  have h₀ := (prop.data (4 * i)).toNat_lt
  have h₁ := (prop.data (4 * i + 1)).toNat_lt
  have h₂ := (prop.data (4 * i + 2)).toNat_lt
  have h₃ := (prop.data (4 * i + 3)).toNat_lt
  simp only [fdt32ToCpu, byte, Property.word, Property.cell]
  omega

theorem word_lt (i : ℕ) : prop.word i < 2^32 := by
  have h₀ := (prop.data (4 * i)).toNat_lt
  have h₁ := (prop.data (4 * i + 1)).toNat_lt
  have h₂ := (prop.data (4 * i + 2)).toNat_lt
  have h₃ := (prop.data (4 * i + 3)).toNat_lt
  simp only [Property.word]
  omega

theorem byte_low (low high : ℕ) {k : ℕ} (hk : k < 4) :
    byte (high * 2^32 + low) k = byte low k := by
  unfold byte
  interval_cases k <;> omega

theorem byte_high {low : ℕ} (high : ℕ) (hl : low < 2^32) (k : ℕ) :
    byte (high * 2^32 + low) (k + 4) = byte high k := by
  have hpow : 2^(8 * (k + 4)) = 2^32 * 2^(8 * k) := by
    rw [← Nat.pow_add]
    congr 1
    ring
  have hdiv : (high * 2^32 + low) / 2^32 = high := by omega
  rw [byte, byte, hpow, ← Nat.div_div_eq_div_mul, hdiv]

/-- Swapping a pair of words swaps the words and each of them. -/
theorem fdt64ToCpu_pair {low : ℕ} (high : ℕ) (hl : low < 2^32) :
    fdt64ToCpu (high * 2^32 + low) = fdt32ToCpu low * 2^32 + fdt32ToCpu high := by
  have h₀ := byte_high high hl 0
  have h₁ := byte_high high hl 1
  have h₂ := byte_high high hl 2
  have h₃ := byte_high high hl 3
  rw [fdt64ToCpu, fdt32ToCpu, fdt32ToCpu, byte_low _ _ (by decide), byte_low _ _ (by decide),
    byte_low _ _ (by decide), byte_low _ _ (by decide), h₀, h₁, h₂, h₃]
  ring

/-- The code reads one or two cells as the device tree stores them. -/
theorem readCells_eq {cells : ℕ} (h : cells = 1 ∨ cells = 2) (i : ℕ) :
    readCells prop cells i = prop.value cells i := by
  rcases h with rfl | rfl
  · simp [readCells, Property.value, fdt32ToCpu_word]
  · rw [readCells, if_neg (by decide), if_pos rfl, fdt64ToCpu_pair _ (word_lt prop i),
      fdt32ToCpu_word, fdt32ToCpu_word]
    simp [Property.value]

end Cells

/-- A valid blob with these memory ranges, in one or two cells each. -/
structure Declares (fdt : Fdt) (prop : Property) (ranges : List (ℕ × ℕ)) : Prop where
  header : fdt.header = none
  memory : fdt.memory = .ok prop
  addressCells : fdt.addressCells = 1 ∨ fdt.addressCells = 2
  sizeCells : fdt.sizeCells = 1 ∨ fdt.sizeCells = 2
  length : prop.memlen = 4 * ((fdt.addressCells + fdt.sizeCells) * ranges.length)
  range : ∀ j (h : j < ranges.length), ranges.get ⟨j, h⟩ =
    (prop.value fdt.addressCells ((fdt.addressCells + fdt.sizeCells) * j),
      prop.value fdt.sizeCells ((fdt.addressCells + fdt.sizeCells) * j + fdt.addressCells))

/-- The entries added, in order. -/
def added (fdt : Fdt) (ranges : List (ℕ × ℕ)) : List MemoryMapEntry :=
  fdt.reservations.map reservedEntry ++ ranges.map memoryEntry

section Loops

variable {T : Target} {fuel : ℕ} {fdt : Fdt} {prop : Property} {ranges : List (ℕ × ℕ)}

theorem reservationLoop_eq (rsvs : List (ℕ × ℕ)) (s : State) :
    reservationLoop T fuel rsvs s = addAll T fuel (rsvs.map reservedEntry) s := by
  induction rsvs generalizing s with
  | nil => rfl
  | cons rsv rest ih =>
    rw [reservationLoop, List.map_cons, addAll]
    congr 1
    funext t
    exact ih t

theorem memoryLoop_eq (h : Declares fdt prop ranges) (steps j : ℕ)
    (hsteps : ranges.length ≤ j + steps) (s : State) :
    memoryLoop T fuel fdt.addressCells fdt.sizeCells prop steps
        ((fdt.addressCells + fdt.sizeCells) * j) s =
      addAll T fuel ((ranges.drop j).map memoryEntry) s := by
  have hlen : prop.memlen / 4 = (fdt.addressCells + fdt.sizeCells) * ranges.length := by
    rw [h.length, Nat.mul_div_cancel_left _ (by decide)]
  have hcells : 0 < fdt.addressCells + fdt.sizeCells := by
    rcases h.addressCells with ha | ha <;> omega
  induction steps generalizing j s with
  | zero =>
    have hj : ¬ (fdt.addressCells + fdt.sizeCells) * j < prop.memlen / 4 := by
      rw [hlen]
      exact not_lt.mpr (Nat.mul_le_mul_left _ hsteps)
    rw [memoryLoop, if_neg hj, List.drop_eq_nil_of_le (by omega)]
    rfl
  | succ steps ih =>
    rw [memoryLoop, hlen]
    by_cases hj : j < ranges.length
    · have hlt : (fdt.addressCells + fdt.sizeCells) * j <
          (fdt.addressCells + fdt.sizeCells) * ranges.length :=
        Nat.mul_lt_mul_of_pos_left hj hcells
      rw [if_pos hlt, readCells_eq prop h.addressCells, readCells_eq prop h.sizeCells,
        ← h.range j hj, List.drop_eq_getElem_cons hj, List.map_cons, addAll]
      congr 1
      funext t
      rw [← Nat.mul_succ]
      exact ih (j + 1) (by omega) t
    · have hge : ¬ (fdt.addressCells + fdt.sizeCells) * j <
          (fdt.addressCells + fdt.sizeCells) * ranges.length :=
        not_lt.mpr (Nat.mul_le_mul_left _ (not_lt.mp hj))
      rw [if_neg hge, List.drop_eq_nil_of_le (not_lt.mp hj)]
      rfl

/-- Reservations are added first, then the memory ranges. -/
theorem dtPlatformInitFdt_eq (h : Declares fdt prop ranges) (addDeviceFdt : State → Outcome)
    (s : State) :
    dtPlatformInitFdt T fuel fdt addDeviceFdt s =
      (addAll T fuel (added fdt ranges) s).andThen addDeviceFdt := by
  have hsteps : ranges.length ≤ 0 + prop.memlen / 4 := by
    rw [h.length, Nat.mul_div_cancel_left _ (by decide), Nat.zero_add]
    have hcells : 0 < fdt.addressCells + fdt.sizeCells := by
      rcases h.addressCells with ha | ha <;> omega
    exact Nat.le_mul_of_pos_left _ hcells
  have hloop : ∀ t, memoryLoop T fuel fdt.addressCells fdt.sizeCells prop (prop.memlen / 4) 0 t =
      addAll T fuel (ranges.map memoryEntry) t := fun t => memoryLoop_eq h _ 0 hsteps t
  simp only [dtPlatformInitFdt, h.header, h.memory, hloop, reservationLoop_eq, added,
    addAll_append]
  cases addAll T fuel (fdt.reservations.map reservedEntry) s <;> rfl

end Loops

/-- No page that overlaps a reservation is conventional memory. -/
def Obeyed (fdt : Fdt) (s : State) : Prop :=
  ∀ rsv ∈ fdt.reservations, ∀ p, Touches (reservedEntry rsv) p →
    pageType s.entries p ≠ some .conventionalMemory

/-- A page that overlaps a reservation and lies wholly in a memory range is
covered in part by some reservation or range. -/
def Blocked (fdt : Fdt) (ranges : List (ℕ × ℕ)) : Prop :=
  ∀ rsv ∈ fdt.reservations, ∀ p, Touches (reservedEntry rsv) p →
    (∃ m ∈ ranges, Covers (memoryEntry m) p) →
    ∃ e ∈ added fdt ranges, Touches e p ∧ ¬ Covers e p

section Types

variable {fdt : Fdt} {ranges : List (ℕ × ℕ)} {p : ℕ}

/-- A page comes out as conventional memory if a range covers it and nothing
covers it in part: reservations are weaker than memory. -/
theorem strongest_memory :
    strongest overlapPrecedence (claimedTypes (added fdt ranges) p) = some .conventionalMemory ↔
      (∃ m ∈ ranges, Covers (memoryEntry m) p) ∧
        ¬ ∃ e ∈ added fdt ranges, Touches e p ∧ ¬ Covers e p := by
  have hkind : ∀ e ∈ added fdt ranges,
      e.type = .conventionalMemory ∨ e.type = .reservedMemoryType := by
    intro e he
    rcases List.mem_append.mp he with he | he
    · obtain ⟨rsv, -, rfl⟩ := List.mem_map.mp he
      exact .inr rfl
    · obtain ⟨m, -, rfl⟩ := List.mem_map.mp he
      exact .inl rfl
  rw [strongest_conventional]
  constructor
  · rintro ⟨⟨e, he, hc, ht⟩, hpart, -⟩
    refine ⟨?_, hpart⟩
    rcases List.mem_append.mp he with he | he
    · obtain ⟨rsv, -, rfl⟩ := List.mem_map.mp he
      cases ht
    · obtain ⟨m, hm, rfl⟩ := List.mem_map.mp he
      exact ⟨m, hm, hc⟩
  · rintro ⟨⟨m, hm, hc⟩, hpart⟩
    exact ⟨⟨memoryEntry m, List.mem_append_right _ (List.mem_map_of_mem hm), hc, rfl⟩, hpart,
      fun e he _ => hkind e he⟩

end Types

/-- One megabyte of memory in one cell each, and one reservation. -/
def oneMegabyte (rsv : ℕ × ℕ) : Fdt where
  header := none
  reservations := [rsv]
  addressCells := 1
  sizeCells := 1
  memory := .ok ⟨8, fun i => if i = 5 then 0x10 else 0⟩

theorem oneMegabyte_declares (rsv : ℕ × ℕ) :
    Declares (oneMegabyte rsv) ⟨8, fun i => if i = 5 then 0x10 else 0⟩ [(0, 0x100000)] := by
  refine ⟨rfl, rfl, .inl rfl, .inl rfl, rfl, ?_⟩
  intro j hj
  obtain rfl : j = 0 := by simpa using hj
  simp [oneMegabyte, Property.value, Property.cell]

end Gandr.DeviceTree
