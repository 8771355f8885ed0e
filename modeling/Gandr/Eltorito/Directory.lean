import Gandr.Lib.Strings
import Gandr.Lib.Word

/-! The search of a directory: `find_directory_record` of
`bal/platform/bios/stage1/eltorito/storage.S`. `load` is what `storage_read` leaves in
the buffer for a block, from the start of the buffer on. -/

namespace Gandr.Eltorito

def toupper (al : UInt8) : UInt8 :=
  if al < 0x61 then al else if al > 0x7A then al else al - 0x20

/-- `strlen`, from the character at `cx` on. -/
def strlen (si : Buffer UInt8) : (fuel cx : ℕ) → Option ℕ
  | 0, _ => none
  | fuel + 1, cx => if si cx = 0 then some cx else strlen si fuel (cx + 1)

/-- `PVD_BUFFER + SECTOR_SIZE` -/
def sectorBuffer : ℕ := 0x2000 + 2048

/-- `eax` and `di`, with the block that is in the buffer. -/
inductive Answer where
  | found (ebx di : ℕ)
  | notFound
  | aborted
  deriving DecidableEq

/-- `.string_cmp` at `bp`, with `rest` characters after that. -/
def stringCmp (si record : Buffer UInt8) : (rest bp : ℕ) → Bool
  | 0, bp => toupper (si bp) = record (33 + bp)
  | rest + 1, bp => if toupper (si bp) = record (33 + bp) then stringCmp si record rest (bp + 1)
    else false

/-- `DIRREC_FLAG_XAR_RECORD` or `DIRREC_FLAG_MULTIPLE_RECORDS` -/
def flagged (record : Buffer UInt8) : Bool := record 25 &&& 0x08 != 0 || record 25 &&& 0x80 != 0

section Search

variable (again : (ebx edx di : ℕ) → Option Answer)

def nextSector (ebx edx : ℕ) : Option Answer :=
  if edx ≤ 2048 then some .notFound else again (Word.add 32 ebx 1) (edx - 2048) sectorBuffer

/-- The end of the data is compared in 16 bits. -/
def nextRecord (ebx edx di length : ℕ) : Option Answer :=
  let di := Word.add 16 di length
  if di ≥ 0x2000 + 2 * 2048 then nextSector again ebx edx
  else if di ≥ (edx + sectorBuffer) % 2^16 then some .notFound
  else again ebx edx di

/-- `.check_record`, with the record at `di`. -/
def checkRecordAt (si : Buffer UInt8) (cx : ℕ) (record : Buffer UInt8) (ebx edx di : ℕ) :
    Option Answer :=
  if record 0 = 0 then nextSector again ebx edx
  else if (record 32).toNat ≠ cx % 2^8 then nextRecord again ebx edx di (record 0).toNat
  else if !stringCmp si record (cx - 1) 0 then nextRecord again ebx edx di (record 0).toNat
  else if flagged record then some .aborted
  else some (.found ebx di)

end Search

/-- The search from `.check_record` on, for at most `fuel` records. -/
def checkRecord (load : ℕ → Buffer UInt8) (si : Buffer UInt8) (cx : ℕ) :
    (fuel ebx edx di : ℕ) → Option Answer
  | 0, _, _, _ => none
  | fuel + 1, ebx, edx, di =>
    checkRecordAt (checkRecord load si cx fuel) si cx (fun k => load ebx (di - sectorBuffer + k))
      ebx edx di

def findDirectoryRecord (load : ℕ → Buffer UInt8) (si : Buffer UInt8) (fuel ebx edx : ℕ) :
    Option Answer :=
  (strlen si fuel 0).bind fun cx => checkRecord load si cx fuel ebx edx sectorBuffer

/-- A directory: its extent and its length in bytes. -/
structure Directory where
  load : ℕ → Buffer UInt8
  lba : UInt32
  len : UInt32

/-- A place in the directory: a sector, and an offset in it. -/
abbrev Place := ℕ × ℕ

namespace Directory

variable (d : Directory)

def block (i : ℕ) : ℕ := (d.lba.toNat + i) % 2^32

def sector (i : ℕ) : Buffer UInt8 := d.load (d.block i)

/-- The bytes of data from a place on. -/
def record (v : Place) : Buffer UInt8 := fun k => d.sector v.1 (v.2 + k)

def sectors : ℕ := (d.len.toNat + 2047) / 2048

/-- The bytes from sector `i` on. -/
def remaining (i : ℕ) : ℕ := d.len.toNat - 2048 * i

/-- The offsets of records in a sector, from `p` to the end of the data or to the first
record of length zero. -/
def offsets (i : ℕ) : ℕ → ℕ → List ℕ
  | 0, _ => []
  | most + 1, p =>
    p :: (if d.sector i p = 0 then []
      else if p + (d.sector i p).toNat < min 2048 (d.remaining i) then
        offsets i most (p + (d.sector i p).toNat)
      else [])

/-- The places in sectors `i` to `i + n - 1`. -/
def placesFrom (i n : ℕ) : List Place :=
  (List.range' i n).flatMap fun j => (d.offsets j 2048 0).map (Prod.mk j)

/-- The places of all records, in order. -/
def places : List Place := d.placesFrom 0 d.sectors

/-- The identifier of a record. -/
def identifier (v : Place) : CString :=
  (List.range (d.record v 32).toNat).map fun k => d.record v (33 + k)

/-- The record is there and has the name in capitals. -/
def Named (name : CString) (v : Place) : Prop :=
  d.record v 0 ≠ 0 ∧ d.identifier v = name.map toupper

instance (name : CString) : DecidablePred (d.Named name) := fun _ => instDecidableAnd

/-- Where the 16-bit comparison takes the offset for the end of the data. -/
def Hindered (v : Place) : Prop :=
  v.2 ≠ 0 ∧ (d.remaining v.1 + sectorBuffer) % 2^16 ≤ sectorBuffer + v.2

instance : DecidablePred d.Hindered := fun _ => instDecidableAnd

/-- The records lie in their sectors and hold their identifiers. -/
def WellFormed : Prop :=
  ∀ v ∈ d.places, d.record v 0 ≠ 0 → 34 ≤ (d.record v 0).toNat ∧
    v.2 + (d.record v 0).toNat ≤ 2048 ∧ 33 + (d.record v 32).toNat ≤ (d.record v 0).toNat

instance : Decidable d.WellFormed := inferInstanceAs (Decidable (∀ v ∈ d.places, _ → _))

/-- The first record with the name is found, or that there is none. -/
def Finds (name : CString) : Prop :=
  ∃ fuel answer, findDirectoryRecord d.load (fun i => (name[i]?).getD 0) fuel d.lba.toNat
      d.len.toNat = some answer ∧
    match d.places.find? (d.Named name) with
    | some v => flagged (d.record v) = false →
      answer = .found (d.block v.1) (sectorBuffer + v.2)
    | none => answer = .notFound

/-- No place up to the first record with the name is taken for the end of the data. -/
def Reachable (name : CString) : Prop :=
  ∀ v, d.places.find? (d.Named name) = some v → flagged (d.record v) = false →
    ¬ d.Hindered v ∧ ∀ u ∈ d.places.takeWhile fun u => !decide (d.Named name u), ¬ d.Hindered u

end Directory

section Names

variable {si record : Buffer UInt8} {name : CString}

theorem stringCmp_iff (rest bp : ℕ) : stringCmp si record rest bp = true ↔
    ∀ k ≤ rest, toupper (si (bp + k)) = record (33 + (bp + k)) := by
  induction rest generalizing bp with
  | zero => simp [stringCmp]
  | succ rest ih =>
    rw [stringCmp]
    split_ifs with h
    · rw [ih]
      constructor
      · intro hall k hk
        cases k with
        | zero => exact h
        | succ k =>
          have := hall k (by omega)
          rwa [Nat.add_right_comm, Nat.add_assoc] at this
      · intro hall k hk
        have := hall (k + 1) (by omega)
        rwa [Nat.add_right_comm, Nat.add_assoc]
    · simp only [false_iff]
      exact fun hall => h (hall 0 (Nat.zero_le _))

theorem strlen_eq (h0 : (0 : UInt8) ∉ name) {fuel cx : ℕ} (hcx : cx ≤ name.length)
    (hfuel : name.length < cx + fuel) :
    strlen (fun i => (name[i]?).getD 0) fuel cx = some name.length := by
  induction fuel generalizing cx with
  | zero => omega
  | succ fuel ih =>
    rw [strlen]
    by_cases hlt : cx < name.length
    · have hne : (name[cx]?).getD 0 ≠ 0 := by
        rw [List.getElem?_eq_getElem hlt]
        intro heq
        exact h0 (heq ▸ List.getElem_mem hlt)
      rw [if_neg hne]
      exact ih hlt (by omega)
    · have heq : cx = name.length := by omega
      rw [heq, List.getElem?_eq_none le_rfl]
      rfl

/-- The tests of the code are that of the name. -/
theorem named_iff {d : Directory} {v : Place} (hne : name ≠ []) (hlen : name.length < 256) :
    d.Named name v ↔ d.record v 0 ≠ 0 ∧ (d.record v 32).toNat = name.length % 2^8 ∧
      stringCmp (fun i => (name[i]?).getD 0) (d.record v) (name.length - 1) 0 = true := by
  have hpos := List.length_pos_iff.mpr hne
  rw [Directory.Named, stringCmp_iff, Nat.mod_eq_of_lt (show name.length < 2^8 from hlen)]
  refine and_congr_right fun _ => ?_
  simp only [Directory.identifier, Nat.zero_add]
  constructor
  · intro heq
    have hlength := congrArg List.length heq
    rw [List.length_map, List.length_range, List.length_map] at hlength
    refine ⟨hlength, fun k hk => ?_⟩
    have hget := congrArg (fun l => l[k]?) heq
    simp only [List.getElem?_map] at hget
    rw [List.getElem?_range (by omega), List.getElem?_eq_getElem (by omega)] at hget
    rw [List.getElem?_eq_getElem (by omega)]
    exact (Option.some.inj hget).symm
  · rintro ⟨hlength, hall⟩
    refine List.ext_getElem (by simp [hlength]) fun k h₁ h₂ => ?_
    have hk : k < name.length := by simpa using h₂
    have := hall k (by omega)
    rw [List.getElem?_eq_getElem hk] at this
    simpa using this.symm

end Names

namespace Directory

variable (d : Directory) (name : CString)

/-- The search over the places, where it stops at a hindrance. -/
def scan : List Place → Answer
  | [] => .notFound
  | v :: rest =>
    if d.Hindered v then .notFound
    else if d.Named name v then
      if flagged (d.record v) then .aborted else .found (d.block v.1) (sectorBuffer + v.2)
    else scan rest

variable {d name}

theorem scan_none {l : List Place} (h : l.find? (d.Named name) = none) :
    d.scan name l = .notFound := by
  induction l with
  | nil => rfl
  | cons v rest ih =>
    rw [List.find?_cons] at h
    split at h
    · cases h
    · next hv =>
      rw [scan, if_neg (of_decide_eq_false hv), ih h, ite_self]

theorem scan_some {l : List Place} {v : Place} (h : l.find? (d.Named name) = some v)
    (hflag : flagged (d.record v) = false) :
    d.scan name l = .found (d.block v.1) (sectorBuffer + v.2) ↔
      ¬ d.Hindered v ∧ ∀ u ∈ l.takeWhile fun u => !decide (d.Named name u), ¬ d.Hindered u := by
  induction l with
  | nil => cases h
  | cons u rest ih =>
    rw [List.find?_cons] at h
    split at h
    · next hu =>
      cases h
      have hu := of_decide_eq_true hu
      rw [scan, if_pos hu, hflag, List.takeWhile_cons_of_neg (by simp [hu])]
      by_cases hh : d.Hindered v <;> simp [hh]
    · next hu =>
      have hu := of_decide_eq_false hu
      rw [scan, if_neg hu, List.takeWhile_cons_of_pos (by simp [hu])]
      by_cases hh : d.Hindered u
      · simp [hh]
      · rw [if_neg hh, ih h, List.forall_mem_cons, and_iff_right hh]

theorem placesFrom_succ (i n : ℕ) :
    d.placesFrom i (n + 1) = (d.offsets i 2048 0).map (Prod.mk i) ++ d.placesFrom (i + 1) n := by
  rw [placesFrom, List.range'_succ, List.flatMap_cons]
  rfl

section Walk

variable {again : (ebx edx di : ℕ) → Option Answer} {i p fuel : ℕ}

/-- The tests at a record, by its name. -/
theorem checkRecordAt_eq (hne : name ≠ []) (hlen : name.length < 256) {ebx edx di : ℕ} (v : Place) :
    checkRecordAt again (fun i => (name[i]?).getD 0) name.length (d.record v) ebx edx di =
      if d.Named name v then some (if flagged (d.record v) then .aborted else .found ebx di)
      else if d.record v 0 = 0 then nextSector again ebx edx
      else nextRecord again ebx edx di (d.record v 0).toNat := by
  have hnamed := @named_iff name d v hne hlen
  rw [checkRecordAt]
  by_cases hzero : d.record v 0 = 0
  · rw [if_pos hzero, if_pos hzero, if_neg fun h => h.1 hzero]
  rw [if_neg hzero, if_neg hzero]
  by_cases hid : (d.record v 32).toNat = name.length % 2^8
  · rw [if_neg (not_not.mpr hid)]
    cases hcmp : stringCmp (fun i => (name[i]?).getD 0) (d.record v) (name.length - 1) 0 with
    | true =>
      rw [if_pos (hnamed.mpr ⟨hzero, hid, hcmp⟩)]
      cases flagged (d.record v) <;> rfl
    | false =>
      have hnot : ¬ d.Named name v := fun h => by simp [hcmp] at hnamed; exact hnamed h
      rw [if_neg hnot]
      rfl
  · have hnot : ¬ d.Named name v := fun h => hid (hnamed.mp h).2.1
    rw [if_pos hid, if_neg hnot]

theorem block_zero : d.block 0 = d.lba.toNat :=
  Nat.mod_eq_of_lt d.lba.toNat_lt

theorem block_succ (i : ℕ) : Word.add 32 (d.block i) 1 = d.block (i + 1) := by
  rw [block, Word.add, Nat.mod_add_mod]
  rfl

/-- The next sector, if the data goes on. -/
theorem nextSector_eq (hi : i < d.sectors)
    (hagain : i + 1 < d.sectors → again (d.block (i + 1)) (d.remaining (i + 1)) sectorBuffer =
      some (d.scan name (d.placesFrom (i + 1) (d.sectors - (i + 1))))) :
    nextSector again (d.block i) (d.remaining i) =
      some (d.scan name (d.placesFrom (i + 1) (d.sectors - (i + 1)))) := by
  rw [nextSector, block_succ]
  by_cases hlast : i + 1 < d.sectors
  · have hmore : ¬ d.remaining i ≤ 2048 := by
      unfold sectors at hlast
      unfold remaining
      omega
    have hless : d.remaining i - 2048 = d.remaining (i + 1) := by
      unfold remaining
      omega
    rw [if_neg hmore, hless]
    exact hagain hlast
  · have hdone : d.remaining i ≤ 2048 := by
      unfold sectors at hlast
      unfold remaining
      omega
    rw [if_pos hdone, show d.sectors - (i + 1) = 0 by omega]
    rfl

/-- The next record of the sector, if the data goes on and nothing hinders. -/
theorem nextRecord_eq {length most : ℕ} (hi : i < d.sectors) (hp : p < 2048)
    (hbyte : length < 2^8) (hlength : 0 < length)
    (hmost : p + length < min 2048 (d.remaining i) → 0 < most)
    (hnext : i + 1 < d.sectors → again (d.block (i + 1)) (d.remaining (i + 1)) sectorBuffer =
      some (d.scan name (d.placesFrom (i + 1) (d.sectors - (i + 1)))))
    (hagain : p + length < min 2048 (d.remaining i) → ¬ d.Hindered (i, p + length) →
      again (d.block i) (d.remaining i) (sectorBuffer + (p + length)) =
        some (d.scan name ((d.offsets i most (p + length)).map (Prod.mk i) ++
          d.placesFrom (i + 1) (d.sectors - (i + 1))))) :
    nextRecord again (d.block i) (d.remaining i) (sectorBuffer + p) length =
      some (d.scan name ((if p + length < min 2048 (d.remaining i) then
        d.offsets i most (p + length) else []).map (Prod.mk i) ++
          d.placesFrom (i + 1) (d.sectors - (i + 1)))) := by
  have hbuffer : sectorBuffer = 0x2800 := rfl
  have hdi : Word.add 16 (sectorBuffer + p) length = sectorBuffer + (p + length) := by
    rw [Word.add_of_lt (by omega), Nat.add_assoc]
  rw [nextRecord, hdi]
  by_cases hend : 2048 ≤ p + length
  · rw [if_pos (by omega), if_neg (by omega)]
    exact nextSector_eq hi hnext
  rw [if_neg (by omega)]
  by_cases hin : p + length < min 2048 (d.remaining i)
  · rw [if_pos hin]
    by_cases hh : d.Hindered (i, p + length)
    · obtain ⟨m, rfl⟩ := Nat.exists_eq_add_of_lt (hmost hin)
      rw [if_pos hh.2, Nat.zero_add, offsets, List.map_cons, List.cons_append, scan, if_pos hh]
    · have hgo : ¬ sectorBuffer + (p + length) ≥ (d.remaining i + sectorBuffer) % 2^16 :=
        fun hge => hh ⟨by dsimp only; omega, hge⟩
      rw [if_neg hgo]
      exact hagain hin hh
  · have hlast : d.sectors - (i + 1) = 0 := by
      unfold sectors at hi ⊢
      unfold remaining at hin
      omega
    rw [if_neg hin, if_pos (by omega), hlast]
    rfl

/-- The search from a place on is the scan of the places from there. -/
theorem checkRecord_eq (hne : name ≠ []) (hlen : name.length < 256) {most : ℕ}
    (hi : i < d.sectors) (hp : p < min 2048 (d.remaining i)) (hh : ¬ d.Hindered (i, p))
    (hmost : 2048 ≤ p + most) (hfuel : 2048 * (d.sectors - i) ≤ p + fuel) :
    checkRecord d.load (fun i => (name[i]?).getD 0) name.length fuel (d.block i) (d.remaining i)
        (sectorBuffer + p) =
      some (d.scan name ((d.offsets i most p).map (Prod.mk i) ++
        d.placesFrom (i + 1) (d.sectors - (i + 1)))) := by
  induction fuel generalizing i p most with
  | zero => omega
  | succ fuel ih =>
    obtain ⟨m, rfl⟩ : ∃ m, most = m + 1 := ⟨most - 1, by omega⟩
    have hrecord : (fun k => d.load (d.block i) (sectorBuffer + p - sectorBuffer + k)) =
        d.record (i, p) := by
      funext k
      rw [Nat.add_sub_cancel_left]
      rfl
    have hfirst : d.record (i, p) 0 = d.sector i p := rfl
    -- what follows in the next sector
    have hnext : i + 1 < d.sectors → checkRecord d.load (fun i => (name[i]?).getD 0) name.length
        fuel (d.block (i + 1)) (d.remaining (i + 1)) sectorBuffer =
          some (d.scan name (d.placesFrom (i + 1) (d.sectors - (i + 1)))) := by
      intro hlt
      have hmore : 0 < min 2048 (d.remaining (i + 1)) := by
        unfold sectors at hlt
        unfold remaining
        omega
      have hstart := @ih (i + 1) 0 2048 hlt hmore (fun h => h.1 rfl) (by omega) (by omega)
      rw [show d.sectors - (i + 1) = d.sectors - (i + 1 + 1) + 1 by omega, placesFrom_succ]
      exact hstart
    rw [checkRecord, hrecord, checkRecordAt_eq hne hlen, offsets, List.map_cons, List.cons_append,
      scan, if_neg hh, ← hfirst]
    by_cases hnamed : d.Named name (i, p)
    · rw [if_pos hnamed, if_pos hnamed]
    rw [if_neg hnamed, if_neg hnamed]
    by_cases hzero : d.record (i, p) 0 = 0
    · rw [if_pos hzero, if_pos hzero]
      exact nextSector_eq hi hnext
    rw [if_neg hzero, if_neg hzero]
    have hlength : 0 < (d.record (i, p) 0).toNat := by
      rw [Nat.pos_iff_ne_zero, ne_eq, ← UInt8.toNat_zero, UInt8.toNat_inj]
      exact hzero
    refine nextRecord_eq hi (by omega) (d.record (i, p) 0).toNat_lt hlength (by omega) hnext ?_
    intro hin hgo
    exact ih hi hin hgo (by omega) (by omega)

end Walk

end Directory

section Fuel

variable {again more : (ebx edx di : ℕ) → Option Answer} {answer : Answer}

theorem nextSector_mono {ebx edx : ℕ}
    (hmore : ∀ ebx edx di, again ebx edx di = some answer → more ebx edx di = some answer)
    (h : nextSector again ebx edx = some answer) : nextSector more ebx edx = some answer := by
  rw [nextSector] at h ⊢
  split_ifs at h ⊢ with hlast
  · exact h
  · exact hmore _ _ _ h

theorem nextRecord_mono {ebx edx di length : ℕ}
    (hmore : ∀ ebx edx di, again ebx edx di = some answer → more ebx edx di = some answer)
    (h : nextRecord again ebx edx di length = some answer) :
    nextRecord more ebx edx di length = some answer := by
  rw [nextRecord] at h ⊢
  split_ifs at h ⊢ with hsector hend
  · exact nextSector_mono hmore h
  · exact h
  · exact hmore _ _ _ h

/-- An answer stays with more fuel. -/
theorem checkRecord_mono {load : ℕ → Buffer UInt8} {si : Buffer UInt8} {cx fuel fuel' : ℕ}
    (hle : fuel ≤ fuel') {ebx edx di : ℕ}
    (h : checkRecord load si cx fuel ebx edx di = some answer) :
    checkRecord load si cx fuel' ebx edx di = some answer := by
  induction fuel generalizing fuel' ebx edx di with
  | zero => cases h
  | succ fuel ih =>
    obtain ⟨fuel', rfl⟩ : ∃ m, fuel' = m + 1 := ⟨fuel' - 1, by omega⟩
    have hmore := fun ebx edx di h => @ih fuel' (by omega) ebx edx di h
    rw [checkRecord, checkRecordAt] at h ⊢
    split_ifs at h ⊢ with hzero hid hcmp hflag
    · exact nextSector_mono hmore h
    · exact nextRecord_mono hmore h
    · exact nextRecord_mono hmore h
    · exact h
    · exact h

theorem strlen_mono {si : Buffer UInt8} {fuel fuel' cx n : ℕ} (hle : fuel ≤ fuel')
    (h : strlen si fuel cx = some n) : strlen si fuel' cx = some n := by
  induction fuel generalizing fuel' cx with
  | zero => cases h
  | succ fuel ih =>
    obtain ⟨fuel', rfl⟩ : ∃ m, fuel' = m + 1 := ⟨fuel' - 1, by omega⟩
    rw [strlen] at h ⊢
    split_ifs at h ⊢ with hend
    · exact h
    · exact ih (by omega) h

theorem findDirectoryRecord_mono {load : ℕ → Buffer UInt8} {si : Buffer UInt8}
    {fuel fuel' ebx edx : ℕ} (hle : fuel ≤ fuel')
    (h : findDirectoryRecord load si fuel ebx edx = some answer) :
    findDirectoryRecord load si fuel' ebx edx = some answer := by
  obtain ⟨cx, hcx, hrecord⟩ := Option.bind_eq_some_iff.mp h
  rw [findDirectoryRecord, strlen_mono hle hcx]
  exact checkRecord_mono hle hrecord

end Fuel

namespace Directory

variable {d : Directory} {name : CString}

/-- A directory without data still has its first place examined. -/
def examined (d : Directory) : List Place := if d.len = 0 then [(0, 0)] else d.places

theorem checkRecord_empty (hne : name ≠ []) (hlen : name.length < 256) (fuel : ℕ) :
    checkRecord d.load (fun i => (name[i]?).getD 0) name.length (fuel + 1) d.lba.toNat 0
      sectorBuffer = some (d.scan name [(0, 0)]) := by
  have hbuffer : sectorBuffer = 0x2800 := rfl
  have hrecord : (fun k => d.load d.lba.toNat (sectorBuffer - sectorBuffer + k)) =
      d.record (0, 0) := by
    rw [Nat.sub_self, ← block_zero]
    rfl
  have hfree : ¬ d.Hindered (0, 0) := fun h => h.1 rfl
  rw [checkRecord, hrecord, checkRecordAt_eq hne hlen, scan, if_neg hfree, scan, block_zero]
  by_cases hnamed : d.Named name (0, 0)
  · rw [if_pos hnamed, if_pos hnamed]
    rfl
  rw [if_neg hnamed, if_neg hnamed]
  split_ifs with hzero
  · rfl
  · have hbyte := (d.record (0, 0) 0).toNat_lt
    rw [nextRecord, Word.add_of_lt (by omega), if_neg (by omega), if_pos (by omega)]

/-- The search is the scan of the places it examines. -/
theorem findDirectoryRecord_eq (hne : name ≠ []) (hlen : name.length < 256)
    (h0 : (0 : UInt8) ∉ name) {answer : Answer} :
    (∃ fuel, findDirectoryRecord d.load (fun i => (name[i]?).getD 0) fuel d.lba.toNat
      d.len.toNat = some answer) ↔ answer = d.scan name d.examined := by
  have henough : findDirectoryRecord d.load (fun i => (name[i]?).getD 0)
      (2048 * d.sectors + name.length + 1) d.lba.toNat d.len.toNat =
        some (d.scan name d.examined) := by
    rw [findDirectoryRecord, strlen_eq h0 (Nat.zero_le _) (by omega), Option.bind_some, examined]
    split_ifs with hempty
    · rw [hempty]
      exact checkRecord_empty hne hlen _
    · have hpos : 0 < d.len.toNat := by
        rw [Nat.pos_iff_ne_zero, ne_eq, ← UInt32.toNat_zero, UInt32.toNat_inj]
        exact hempty
      have hsectors : 0 < d.sectors := by
        unfold sectors
        omega
      have hdata : 0 < min 2048 (d.remaining 0) := by
        unfold remaining
        omega
      have hstart := @checkRecord_eq d name 0 0 (2048 * d.sectors + name.length + 1) hne hlen 2048
        hsectors hdata (fun h => h.1 rfl) (by omega) (by omega)
      have hplaces : d.places =
          (d.offsets 0 2048 0).map (Prod.mk 0) ++ d.placesFrom (0 + 1) (d.sectors - (0 + 1)) := by
        rw [places, ← placesFrom_succ, Nat.zero_add, Nat.sub_add_cancel hsectors]
      rw [hplaces, ← hstart, block_zero]
      rfl
  constructor
  · rintro ⟨fuel, h⟩
    have hmore := findDirectoryRecord_mono (Nat.le_add_left _ fuel) henough
    rw [findDirectoryRecord_mono (Nat.le_add_right fuel _) h] at hmore
    exact Option.some.inj hmore
  · rintro rfl
    exact ⟨_, henough⟩

theorem finds_iff_scan (hne : name ≠ []) (hlen : name.length < 256) (h0 : (0 : UInt8) ∉ name) :
    d.Finds name ↔ match d.places.find? (d.Named name) with
      | some v => flagged (d.record v) = false →
        d.scan name d.examined = .found (d.block v.1) (sectorBuffer + v.2)
      | none => d.scan name d.examined = .notFound := by
  rw [Finds, exists_comm]
  simp only [exists_and_right, findDirectoryRecord_eq hne hlen h0, exists_eq_left]

theorem places_empty (hempty : d.len = 0) : d.places = [] := by
  rw [places, sectors, hempty]
  rfl

/-- The search is exact in a directory without data when its first place has not the name,
and elsewhere when no place up to the first match is taken for the end. -/
theorem finds_iff (hne : name ≠ []) (hlen : name.length < 256) (h0 : (0 : UInt8) ∉ name) :
    d.Finds name ↔ (d.len = 0 → ¬ d.Named name (0, 0)) ∧ d.Reachable name := by
  rw [finds_iff_scan hne hlen h0, examined]
  by_cases hempty : d.len = 0
  · have hplaces := places_empty hempty
    have hreachable : d.Reachable name := by
      intro v hv
      rw [hplaces] at hv
      cases hv
    have hfree : ¬ d.Hindered (0, 0) := fun h => h.1 rfl
    rw [if_pos hempty, hplaces, and_iff_left hreachable, List.find?_nil]
    dsimp only
    rw [scan, if_neg hfree]
    by_cases hnamed : d.Named name (0, 0)
    · cases flagged (d.record (0, 0)) <;> simp [hnamed, hempty]
    · simp [hnamed, scan]
  · rw [if_neg hempty, and_iff_right fun h => absurd h hempty, Reachable]
    cases hfind : d.places.find? (d.Named name) with
    | none => simp [scan_none hfind]
    | some v =>
      simp only [Option.some.injEq, forall_eq']
      exact forall_congr' fun hflag => scan_some hfind hflag

theorem mem_offsets {i p q most : ℕ} (hp : p < min 2048 (d.remaining i))
    (h : q ∈ d.offsets i most p) : q < min 2048 (d.remaining i) := by
  induction most generalizing p with
  | zero => cases h
  | succ most ih =>
    rw [offsets, List.mem_cons] at h
    rcases h with rfl | h
    · exact hp
    · split_ifs at h with hzero hin
      · cases h
      · exact ih hin h
      · cases h

/-- Nothing hinders in a directory whose end has no more than 16 bits. -/
theorem not_hindered_of_mem (hsmall : d.len.toNat + sectorBuffer < 2^16) {v : Place}
    (hv : v ∈ d.places) : ¬ d.Hindered v := by
  obtain ⟨j, hj, hv⟩ := List.mem_flatMap.mp hv
  obtain ⟨q, hq, rfl⟩ := List.mem_map.mp hv
  have hlt : j < d.sectors := by simpa using hj
  have hdata : 0 < min 2048 (d.remaining j) := by
    unfold sectors at hlt
    unfold remaining
    omega
  have hqlt := mem_offsets hdata hq
  rintro ⟨-, hle⟩
  unfold remaining at hle hqlt
  rw [Nat.mod_eq_of_lt (by omega)] at hle
  dsimp only at hle
  omega

theorem reachable_of_len_lt (hsmall : d.len.toNat + sectorBuffer < 2^16) : d.Reachable name := by
  intro v hv _
  refine ⟨not_hindered_of_mem hsmall (List.mem_of_find?_eq_some hv), fun u hu => ?_⟩
  exact not_hindered_of_mem hsmall ((List.takeWhile_sublist _).subset hu)

/-- A directory of one sector with records, of which the second is that of the file BOOT. -/
def ofBoot (len : UInt32) : Directory where
  load lba k := if lba = 16 then ([34, 0, 0, 0, 0, 0, 0, 0, 0, 0, 0, 0, 0, 0, 0, 0, 0, 0, 0, 0, 0, 0,
    0, 0, 0, 2, 0, 0, 0, 0, 0, 0, 1, 0, 38, 0, 0, 0, 0, 0, 0, 0, 0, 0, 0, 0, 0, 0, 0, 0, 0, 0, 0, 0,
    0, 0, 0, 0, 0, 0, 0, 0, 0, 0, 0, 0, 4, 66, 79, 79, 84] : List UInt8)[k]?.getD 0 else 0
  lba := 16
  len := len

theorem finds_boot : (ofBoot 0x800).Finds (CString.ofString "boot") := by
  refine (finds_iff (by decide) (by decide) (by decide)).mpr ⟨by decide, ?_⟩
  exact reachable_of_len_lt (by decide)

/-- With 27 sectors the end of the data is at `0x10000`, and no second record is reached. -/
theorem not_finds_boot : (ofBoot 0xD800).WellFormed ∧
    (ofBoot 0xD800).places.find? ((ofBoot 0xD800).Named (CString.ofString "boot")) = some (0, 34) ∧
    flagged ((ofBoot 0xD800).record (0, 34)) = false ∧
    findDirectoryRecord (ofBoot 0xD800).load (fun i => ((CString.ofString "boot")[i]?).getD 0) 8
      16 0xD800 = some .notFound ∧
    ¬ (ofBoot 0xD800).Finds (CString.ofString "boot") := by
  have hfind : (ofBoot 0xD800).places.find? ((ofBoot 0xD800).Named (CString.ofString "boot")) =
      some (0, 34) := by decide +kernel
  refine ⟨by decide +kernel, hfind, by decide +kernel, by decide +kernel, ?_⟩
  rw [finds_iff_scan (by decide) (by decide) (by decide), hfind]
  decide +kernel

end Directory

end Gandr.Eltorito
