import Gandr.DeviceTree.System
import Gandr.Lib.Word

/-! The loop of `dt_platform_init_fdt` over the property `reg` of the memory node, with
the machine's integers: `i` is an `int`, the cell counts are `unsigned`. The counts and
the property are what `libfdt` reports. -/

namespace Gandr.DeviceTree

open Mmap

/-- An `int` with the low 32 bits of a number. -/
def toInt (x : ℤ) : ℤ := x.bmod (2^32)

/-- An `unsigned` with the low 32 bits of a number. -/
def toUnsigned (x : ℤ) : ℤ := x % 2^32

/-- `p[i]`, loaded as a little-endian word, where `bytes` is the memory around `p`. -/
def loadWord (bytes : ℤ → UInt8) (i : ℤ) : ℕ :=
  (bytes (4 * i)).toNat + (bytes (4 * i + 1)).toNat * 2^8 +
    (bytes (4 * i + 2)).toNat * 2^16 + (bytes (4 * i + 3)).toNat * 2^24

/-- A number of one cell at `i`, or of two at `i` and `next`. -/
def loadCells (bytes : ℤ → UInt8) (cells : ℕ) (i next : ℤ) : ℕ :=
  if cells = 1 then fdt32ToCpu (loadWord bytes i)
  else if cells = 2 then fdt64ToCpu (loadWord bytes next * 2^32 + loadWord bytes i)
  else 0

def cellReads (cells : ℕ) (i next : ℤ) : List ℤ :=
  if cells = 1 then [i] else if cells = 2 then [next, i] else []

/-- A round of the loop: the cells read and the range passed to `mmap_add_entry`. -/
structure Round where
  reads : List ℤ
  baseAddr : ℕ
  baseSize : ℕ

def memoryRound (bytes : ℤ → UInt8) (addrCells sizeCells : ℕ) (i : ℤ) : Round where
  reads := cellReads addrCells i (i + 1) ++
    cellReads sizeCells (toUnsigned (i + addrCells)) (toUnsigned (i + addrCells + 1))
  baseAddr := loadCells bytes addrCells i (i + 1)
  baseSize := loadCells bytes sizeCells (toUnsigned (i + addrCells))
    (toUnsigned (i + addrCells + 1))

/-- The rounds from `i` on, if there are at most `steps`. -/
def memoryRounds (bytes : ℤ → UInt8) (memlen addrCells sizeCells : ℕ) :
    ℕ → ℤ → Option (List Round)
  | 0, i => if i < ↑(memlen / 4) then none else some []
  | steps + 1, i =>
    if i < ↑(memlen / 4) then
      (memoryRounds bytes memlen addrCells sizeCells steps
        (toInt (i + Word.add 32 addrCells sizeCells))).map
          (memoryRound bytes addrCells sizeCells i :: ·)
    else some []

/-- The property as it lies in memory. -/
def fromBytes (bytes : ℤ → UInt8) (memlen : ℕ) : Property := ⟨memlen, fun k => bytes k⟩

/-- The loop ends, reads no cell outside the property and passes on each complete tuple
once, in order. -/
def ReadsMemory (bytes : ℤ → UInt8) (memlen addrCells sizeCells : ℕ) : Prop :=
  ∃ steps rounds, memoryRounds bytes memlen addrCells sizeCells steps 0 = some rounds ∧
    (∀ round ∈ rounds, ∀ i ∈ round.reads, 0 ≤ i ∧ 4 * (i + 1) ≤ memlen) ∧
    rounds.length = memlen / 4 / (addrCells + sizeCells) ∧
    ∀ j (hj : j < rounds.length),
      (addrCells = 1 ∨ addrCells = 2 → (rounds.get ⟨j, hj⟩).baseAddr =
        (fromBytes bytes memlen).value addrCells ((addrCells + sizeCells) * j)) ∧
      (sizeCells = 1 ∨ sizeCells = 2 → (rounds.get ⟨j, hj⟩).baseSize =
        (fromBytes bytes memlen).value sizeCells ((addrCells + sizeCells) * j + addrCells))

section Rounds

variable {bytes : ℤ → UInt8} {memlen addrCells sizeCells steps : ℕ} {i : ℤ} {rounds : List Round}

theorem loadWord_eq (bytes : ℤ → UInt8) (memlen k : ℕ) :
    loadWord bytes k = (fromBytes bytes memlen).word k := by
  simp only [loadWord, Property.word, fromBytes, Nat.cast_add, Nat.cast_mul, Nat.cast_ofNat,
    Nat.cast_one]

theorem loadCells_eq (bytes : ℤ → UInt8) (memlen cells k : ℕ) :
    loadCells bytes cells k ↑(k + 1) = readCells (fromBytes bytes memlen) cells k := by
  rw [loadCells, readCells, loadWord_eq bytes memlen, loadWord_eq bytes memlen]

theorem toInt_of_lt {x : ℕ} (h : x < 2^31) : toInt x = x := by
  unfold toInt
  rw [Int.bmod_eq_of_le] <;> omega

theorem toUnsigned_of_lt {x cells : ℕ} (h : x + cells + 1 < 2^32) :
    toUnsigned (↑x + ↑cells) = ↑(x + cells) ∧ toUnsigned (↑x + ↑cells + 1) = ↑(x + cells + 1) := by
  unfold toUnsigned
  omega

/-- More steps do not change what was finished. -/
theorem memoryRounds_mono (h : memoryRounds bytes memlen addrCells sizeCells steps i = some rounds)
    (more : ℕ) :
    memoryRounds bytes memlen addrCells sizeCells (steps + more) i = some rounds := by
  induction steps generalizing i rounds with
  | zero =>
    rw [memoryRounds] at h
    split_ifs at h with hi
    cases more with
    | zero => rw [Nat.add_zero, memoryRounds, if_neg hi, h]
    | succ more => rw [Nat.zero_add, memoryRounds, if_neg hi, h]
  | succ steps ih =>
    rw [memoryRounds] at h
    rw [Nat.succ_add, memoryRounds]
    split_ifs at h ⊢ with hi
    · obtain ⟨rest, hrest, rfl⟩ := Option.map_eq_some_iff.mp h
      rw [ih hrest]
      rfl
    · exact h

/-- Strides that do not wrap: a round for each multiple below the number of cells. -/
theorem memoryRounds_eq (hlen : memlen < 2^31)
    (hle : addrCells + sizeCells ≤ memlen / 4) {count : ℕ}
    (hcount : ∀ k, (addrCells + sizeCells) * k < memlen / 4 ↔ k < count) (j : ℕ)
    (hsteps : count ≤ j + steps) :
    memoryRounds bytes memlen addrCells sizeCells steps ↑((addrCells + sizeCells) * j) =
      some ((List.range' j (count - j)).map fun k =>
        memoryRound bytes addrCells sizeCells ↑((addrCells + sizeCells) * k)) := by
  have hcells : Word.add 32 addrCells sizeCells = addrCells + sizeCells :=
    Word.add_of_lt (by omega)
  induction steps generalizing j with
  | zero =>
    have hj := (hcount j).not.mpr (by omega)
    have hdone : count ≤ j := hsteps
    rw [memoryRounds, if_neg (by exact_mod_cast hj), Nat.sub_eq_zero_of_le hdone]
    rfl
  | succ steps ih =>
    rw [memoryRounds]
    by_cases hj : j < count
    · have hlt := (hcount j).mpr hj
      have hnext : toInt (↑((addrCells + sizeCells) * j) + ↑(Word.add 32 addrCells sizeCells)) =
          ↑((addrCells + sizeCells) * (j + 1)) := by
        rw [hcells, ← Nat.cast_add, ← Nat.mul_succ]
        exact toInt_of_lt (by rw [Nat.mul_succ]; omega)
      have hsplit : count - j = count - (j + 1) + 1 := by omega
      rw [if_pos (by exact_mod_cast hlt), hnext, ih (j + 1) (by omega), hsplit, List.range'_succ]
      rfl
    · have hge := (hcount j).not.mpr hj
      rw [if_neg (by exact_mod_cast hge), Nat.sub_eq_zero_of_le (not_lt.mp hj)]
      rfl

/-- A complete tuple is read inside the property. -/
theorem memoryRound_reads {x : ℕ} (hlen : memlen < 2^31)
    (hin : x + (addrCells + sizeCells) ≤ memlen / 4) :
    ∀ i ∈ (memoryRound bytes addrCells sizeCells x).reads, 0 ≤ i ∧ 4 * (i + 1) ≤ memlen := by
  obtain ⟨hsize, hnext⟩ := @toUnsigned_of_lt x addrCells (by omega)
  intro i hi
  simp only [memoryRound, hsize, hnext, List.mem_append, cellReads] at hi
  rcases hi with hi | hi
  · split_ifs at hi with h₁ h₂ <;> simp at hi <;> omega
  · split_ifs at hi with h₁ h₂ <;> simp at hi <;> omega

theorem memoryRound_baseAddr (x : ℕ) : (memoryRound bytes addrCells sizeCells x).baseAddr =
    readCells (fromBytes bytes memlen) addrCells x :=
  loadCells_eq bytes memlen addrCells x

theorem memoryRound_baseSize {x : ℕ} (h : x + addrCells + 1 < 2^32) :
    (memoryRound bytes addrCells sizeCells x).baseSize =
      readCells (fromBytes bytes memlen) sizeCells (x + addrCells) := by
  obtain ⟨hsize, hnext⟩ := @toUnsigned_of_lt x addrCells h
  simp only [memoryRound, hsize, hnext]
  exact loadCells_eq bytes memlen sizeCells (x + addrCells)

/-- The rounds are those whose ranges `dt_platform_init_fdt` adds. -/
theorem memoryLoop_rounds (T : Target) (fuel : ℕ) (hlen : memlen < 2^31)
    (hle : addrCells + sizeCells ≤ memlen / 4) {count : ℕ}
    (hcount : ∀ k, (addrCells + sizeCells) * k < memlen / 4 ↔ k < count) (j : ℕ)
    (hsteps : count ≤ j + steps) (s : State) :
    memoryLoop T fuel addrCells sizeCells (fromBytes bytes memlen) steps
        ((addrCells + sizeCells) * j) s =
      addAll T fuel (((List.range' j (count - j)).map fun k =>
        memoryRound bytes addrCells sizeCells ↑((addrCells + sizeCells) * k)).map fun round =>
          memoryEntry (round.baseAddr, round.baseSize)) s := by
  have hmemlen : (fromBytes bytes memlen).memlen = memlen := rfl
  induction steps generalizing j s with
  | zero =>
    have hdone : count ≤ j := hsteps
    rw [memoryLoop, hmemlen, if_neg ((hcount j).not.mpr (by omega)), Nat.sub_eq_zero_of_le hdone]
    rfl
  | succ steps ih =>
    rw [memoryLoop, hmemlen]
    by_cases hj : j < count
    · have hlt := (hcount j).mpr hj
      have hsplit : count - j = count - (j + 1) + 1 := by omega
      rw [if_pos hlt, hsplit, List.range'_succ, List.map_cons, List.map_cons, addAll,
        @memoryRound_baseAddr bytes memlen, @memoryRound_baseSize bytes memlen _ _ _ (by omega)]
      congr 1
      funext t
      rw [← Nat.mul_succ]
      exact ih (j + 1) (by omega) t
    · rw [if_neg ((hcount j).not.mpr hj), Nat.sub_eq_zero_of_le (not_lt.mp hj)]
      rfl

/-- Where tuples fill the property, each of them gets its round. -/
theorem readsMemory_of_dvd (hlen : memlen < 2^31)
    (hdvd : addrCells + sizeCells ∣ memlen / 4) :
    ReadsMemory bytes memlen addrCells sizeCells := by
  by_cases hzero : memlen / 4 = 0
  · refine ⟨0, [], ?_, nofun, ?_, nofun⟩
    · rw [memoryRounds, hzero]
      rfl
    · rw [hzero, Nat.zero_div]
      rfl
  obtain ⟨count, hfull⟩ := hdvd
  have hpos : 0 < addrCells + sizeCells := by
    by_contra hnot
    rw [Nat.eq_zero_of_not_pos hnot, Nat.zero_mul] at hfull
    exact hzero hfull
  have hcount : ∀ k, (addrCells + sizeCells) * k < memlen / 4 ↔ k < count := by
    intro k
    rw [hfull]
    exact Nat.mul_lt_mul_left hpos
  have hle : addrCells + sizeCells ≤ memlen / 4 := Nat.le_of_dvd (by omega) ⟨count, hfull⟩
  have hrounds := @memoryRounds_eq bytes memlen addrCells sizeCells count hlen hle count
    hcount 0 (by omega)
  have hin : ∀ k < count, (addrCells + sizeCells) * k + (addrCells + sizeCells) ≤ memlen / 4 := by
    intro k hk
    rw [hfull, ← Nat.mul_succ]
    exact Nat.mul_le_mul_left _ hk
  refine ⟨count, _, hrounds, ?_, ?_, ?_⟩
  · intro round hround
    obtain ⟨k, hk, rfl⟩ := List.mem_map.mp hround
    exact memoryRound_reads hlen (hin k (by simpa using hk))
  · rw [List.length_map, List.length_range', hfull, Nat.mul_div_cancel_left _ hpos, Nat.sub_zero]
  · intro j hj
    have hj : j < count := by simpa using hj
    simp only [List.get_eq_getElem, List.getElem_map, List.getElem_range', Nat.zero_add,
      Nat.one_mul]
    have hj := hin j hj
    rw [@memoryRound_baseAddr bytes memlen, @memoryRound_baseSize bytes memlen _ _ _ (by omega)]
    exact ⟨fun ha => readCells_eq _ ha _, fun hs => readCells_eq _ hs _⟩

/-- A loop that ends has a round for every tuple, complete or not. -/
theorem dvd_of_readsMemory (hlen : memlen < 2^31)
    (h : ReadsMemory bytes memlen addrCells sizeCells) : addrCells + sizeCells ∣ memlen / 4 := by
  obtain ⟨steps, rounds, hrounds, -, hlength, -⟩ := h
  by_cases hzero : memlen / 4 = 0
  · rw [hzero]
    exact Nat.dvd_zero _
  -- the first round is made in any case
  have hne : rounds.length ≠ 0 := by
    rintro hnil
    rw [List.length_eq_zero_iff.mp hnil] at hrounds
    cases steps with
    | zero =>
      rw [memoryRounds, if_pos (by omega)] at hrounds
      cases hrounds
    | succ steps =>
      rw [memoryRounds, if_pos (by omega)] at hrounds
      obtain ⟨rest, -, hcons⟩ := Option.map_eq_some_iff.mp hrounds
      cases hcons
  rw [hlength] at hne
  obtain ⟨hpos, hle⟩ : 0 < addrCells + sizeCells ∧ addrCells + sizeCells ≤ memlen / 4 := by
    refine ⟨Nat.pos_of_ne_zero fun h => hne (by rw [h, Nat.div_zero]), ?_⟩
    by_contra hlt
    exact hne (Nat.div_eq_of_lt (not_le.mp hlt))
  have hcount : ∀ k, (addrCells + sizeCells) * k < memlen / 4 ↔
      k < (memlen / 4 + (addrCells + sizeCells) - 1) / (addrCells + sizeCells) := by
    intro k
    rw [Nat.lt_div_iff_mul_lt hpos, Nat.mul_comm]
    omega
  have hsame := @memoryRounds_eq bytes memlen addrCells sizeCells
    (steps + (memlen / 4 + (addrCells + sizeCells) - 1) / (addrCells + sizeCells)) hlen hle _
    hcount 0 (by omega)
  rw [Nat.mul_zero, Nat.cast_zero, memoryRounds_mono hrounds, Option.some.injEq] at hsame
  have hrounded := congrArg List.length hsame
  rw [hlength, List.length_map, List.length_range', Nat.sub_zero] at hrounded
  -- as many tuples are begun as are complete
  by_contra hndvd
  have hlast := (hcount (memlen / 4 / (addrCells + sizeCells))).mp
    (lt_of_le_of_ne (Nat.mul_div_le _ _) fun heq => hndvd ⟨_, heq.symm⟩)
  omega

end Rounds

/-- The loop does what it is meant to exactly if tuples fill the whole cells of the
property. -/
theorem readsMemory_iff (bytes : ℤ → UInt8) (memlen : ℕ) (hlen : memlen < 2^31)
    (addrCells sizeCells : UInt32) :
    ReadsMemory bytes memlen addrCells.toNat sizeCells.toNat ↔
      addrCells.toNat + sizeCells.toNat ∣ memlen / 4 :=
  ⟨dvd_of_readsMemory hlen, readsMemory_of_dvd hlen⟩

/-- Two ranges in one cell each. -/
theorem twoRanges_readsMemory : ReadsMemory (fun i => UInt8.ofNat i.toNat) 16 1 1 :=
  (readsMemory_iff _ 16 (by decide) 1 1).mpr (by decide)

/-- A third cell behind a range is taken for an address, and its size from behind the
property. -/
theorem threeCells_not_readsMemory : ¬ ReadsMemory (fun i => UInt8.ofNat i.toNat) 12 1 1 :=
  fun h => absurd (dvd_of_readsMemory (by decide) h) (by decide)

end Gandr.DeviceTree
