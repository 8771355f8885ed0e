import Gandr.Lib.Word

/-! The data of `gd_common.h` that the memory map stores, and the precedence
tables of `bal/mmap.c`. Addresses and sizes are natural numbers below `2^64`;
the arithmetic on them is that of `Gandr.Word`. -/

namespace Gandr.Mmap

/-- `gd_memory_type`. -/
inductive MemoryType where
  | reservedMemoryType
  | loaderCode
  | loaderData
  | bootServicesCode
  | bootServicesData
  | runtimeServicesCode
  | runtimeServicesData
  | conventionalMemory
  | unusableMemory
  | acpiReclaimMemory
  | acpiMemoryNvs
  | mmio
  | mmioPortSpace
  | palCode
  deriving DecidableEq, Repr

/-- `gd_memory_map_entry`. -/
structure MemoryMapEntry where
  type : MemoryType
  physicalStart : ℕ
  virtualStart : ℕ := 0
  size : ℕ
  attributes : ℕ := 0
  deriving DecidableEq, Repr

/-- The first byte after the entry, as the code computes it in 64 bits. -/
def MemoryMapEntry.physicalEnd (e : MemoryMapEntry) : ℕ :=
  Word.add 64 e.physicalStart e.size

/-- The initial contents of `overlap_precedence`: an overlap is promoted to
the type that comes earlier. -/
def overlapPrecedence : List MemoryType :=
  [.unusableMemory, .palCode, .mmioPortSpace, .mmio,
    .acpiMemoryNvs, .runtimeServicesCode, .runtimeServicesData,
    .acpiReclaimMemory, .loaderCode, .loaderData, .bootServicesCode,
    .bootServicesData, .conventionalMemory, .reservedMemoryType]

/-- `free_overlap_precedence` of `gd_free_pages`: anything apart from
unusable memory yields to conventional memory. -/
def freeOverlapPrecedence : List MemoryType :=
  [.unusableMemory, .conventionalMemory, .palCode, .mmioPortSpace, .mmio,
    .acpiMemoryNvs, .runtimeServicesCode, .runtimeServicesData,
    .acpiReclaimMemory, .loaderCode, .loaderData, .bootServicesCode,
    .bootServicesData, .reservedMemoryType]

/-- `higher_precedence`, over the table in force. -/
def higherPrecedence : List MemoryType → MemoryType → MemoryType → MemoryType
  | [], _, _ => .unusableMemory
  | t :: rest, a, b => if t = a then a else if t = b then b else higherPrecedence rest a b

/-- Position of a type in a table; smaller is stronger. -/
def rank (table : List MemoryType) (t : MemoryType) : ℕ := table.idxOf t

/-- A table that ranks every type. -/
def Complete (table : List MemoryType) : Prop := ∀ t, t ∈ table

theorem overlapPrecedence_complete : Complete overlapPrecedence := by
  intro t
  cases t <;> decide

theorem freeOverlapPrecedence_complete : Complete freeOverlapPrecedence := by
  intro t
  cases t <;> decide

theorem rank_le (table : List MemoryType) (t : MemoryType) : rank table t ≤ table.length :=
  List.idxOf_le_length

theorem rank_lt {table : List MemoryType} (h : Complete table) (t : MemoryType) :
    rank table t < table.length := List.idxOf_lt_length_of_mem (h t)

theorem rank_inj {table : List MemoryType} (h : Complete table) {a b : MemoryType}
    (hab : rank table a = rank table b) : a = b := by
  have ha := List.getElem_idxOf (rank_lt h a)
  have hb := List.getElem_idxOf (rank_lt h b)
  rw [← ha, ← hb]
  congr 1

theorem rank_cons (t : MemoryType) (rest : List MemoryType) (a : MemoryType) :
    rank (t :: rest) a = if t = a then 0 else rank rest a + 1 := by
  by_cases h : t = a <;> simp [rank, h]

/-- The table scan picks the argument of smaller rank. -/
theorem higherPrecedence_eq {table : List MemoryType} (a b : MemoryType)
    (h : a ∈ table) :
    higherPrecedence table a b = if rank table a ≤ rank table b then a else b := by
  induction table with
  | nil => simp at h
  | cons t rest ih =>
    by_cases ha : t = a
    · simp [higherPrecedence, rank_cons, ha]
    · have hmem : a ∈ rest := by
        rcases List.mem_cons.mp h with h | h
        · exact absurd h.symm ha
        · exact h
      by_cases hb : t = b
      · subst hb
        simp [higherPrecedence, rank_cons, ha]
      · simp only [higherPrecedence, rank_cons, ha, hb, if_false, ih hmem,
          Nat.add_le_add_iff_right]

theorem rank_higherPrecedence {table : List MemoryType} (h : Complete table)
    (a b : MemoryType) :
    rank table (higherPrecedence table a b) = min (rank table a) (rank table b) := by
  rw [higherPrecedence_eq a b (h a)]
  split_ifs <;> omega

theorem higherPrecedence_eq_left {table : List MemoryType} (h : Complete table)
    {a b : MemoryType} :
    higherPrecedence table a b = a ↔ rank table a ≤ rank table b := by
  rw [higherPrecedence_eq a b (h a)]
  split_ifs with hle
  · simp [hle]
  · constructor
    · intro hba
      exact absurd (le_of_eq (congrArg (rank table) hba.symm)) hle
    · intro hle'
      exact absurd hle' hle

end Gandr.Mmap
