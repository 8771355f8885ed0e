import Gandr.DeviceTree.System
import Gandr.DeviceTree.Tree
import Gandr.Lib.Word

/-! Register ranges of a node: `dt_node_get_reg_range` and `dt_node_get_reg_count`
of `bal/device/dt/dt_tree.c`, with pointers of `w` bytes. The cells of the value
that are read are recorded. -/

namespace Gandr.DeviceTree

/-- Why a call does not return. -/
inductive Stop where
  | panic (text : CString)
  | nullPointer
  | divisionByZero
  deriving DecidableEq

/-- The value of a property, from its start. -/
def Heap.valueOf (h : Heap) (p : Block) : Property :=
  ⟨(h.property p).valueLen, h.value (h.property p).value⟩

def dtPropertyGetUint32 (h : Heap) (p : Block) : Except Stop ℕ :=
  if (h.property p).valueLen ≠ 4 then
    .error (.panic (.ofString "dt_property_get_uint32: property (" ++ (h.property p).name ++
      .ofString ") not 32-bit"))
  else .ok (fdt32ToCpu ((h.valueOf p).word 0))

/-- A number that a node has in a property of its own. -/
def getCells (name missing : String) (h : Heap) : Option Block → Except Stop ℕ
  | none => .error .nullPointer
  | some node =>
    match dtNodeFindProperty h node (.ofString name) with
    | none => .error (.panic (.ofString missing))
    | some p => dtPropertyGetUint32 h p

def dtNodeGetAddressCells : Heap → Option Block → Except Stop ℕ :=
  getCells "#address_cells" "Node without address cells"

def dtNodeGetSizeCells : Heap → Option Block → Except Stop ℕ :=
  getCells "#size_cells" "Node without size cells"

/-- `acells` and `scells`. -/
def parentCells (h : Heap) (node : Block) : Except Stop (ℕ × ℕ) := do
  let acells ← dtNodeGetAddressCells h (h.node node).parent
  let scells ← dtNodeGetSizeCells h (h.node node).parent
  return (acells, scells)

def hex (v : ℕ) : CString := .ofString (String.ofList (Nat.toDigits 16 v))

def decimal (v : ℕ) : CString := .ofString (String.ofList (Nat.toDigits 10 v))

def outOfRange (what : String) (v : ℕ) (name : CString) : Stop :=
  .panic (.ofString what ++ .ofString " out of range (0x" ++ hex v ++ .ofString ") on " ++ name)

/-- The targets of the output parameters, and the cells read so far. -/
structure RegRange where
  ptr : ℕ
  sz : ℕ
  reads : List ℕ
  deriving DecidableEq

section Range

variable (w : ℕ) (prop : Property) (name : CString)

/-- `memcpy` of two cells into a `uint64_t`, and the conversion. -/
def read64At (base : ℕ) : ℕ := fdt64ToCpu (prop.word (base + 1) * 2^32 + prop.word base)

def readAddress (acells baseIdx : ℕ) (r : RegRange) : RegRange × Except Stop Unit :=
  if acells = 1 then
    ({ r with ptr := fdt32ToCpu (prop.word baseIdx), reads := r.reads ++ [baseIdx] }, .ok ())
  else if acells = 2 then
    let v := read64At prop baseIdx
    let r := { r with reads := r.reads ++ [baseIdx, baseIdx + 1] }
    if v > Word.max (8 * w) then (r, .error (outOfRange "Address" v name))
    else ({ r with ptr := v }, .ok ())
  else (r, .ok ())

/-- A size in one cell goes to `ptr` and comes from the first tuple; one in two
cells comes from the start of the tuple. -/
def readSize (acells scells baseIdx : ℕ) (r : RegRange) : RegRange × Except Stop Unit :=
  if scells = 1 then
    ({ r with ptr := fdt32ToCpu (prop.word acells), reads := r.reads ++ [acells] }, .ok ())
  else if scells = 2 then
    let v := read64At prop baseIdx
    let r := { r with reads := r.reads ++ [baseIdx, baseIdx + 1] }
    if v > Word.max (8 * w) then (r, .error (outOfRange "Size" v name))
    else ({ r with sz := v }, .ok ())
  else (r, .ok ())

/-- The decoding of a tuple that passed the check. -/
def readTuple (acells scells baseIdx : ℕ) (r : RegRange) : RegRange × Except Stop Bool :=
  match readAddress w prop name acells baseIdx r with
  | (r, .error e) => (r, .error e)
  | (r, .ok ()) =>
    match readSize w prop name acells scells baseIdx r with
    | (r, .error e) => (r, .error e)
    | (r, .ok ()) => (r, .ok true)

end Range

/-- The tuple's size in bytes, as `size_t`. -/
def tupleBytes (w acells scells : ℕ) : ℕ := Word.mul (8 * w) (Word.add 32 acells scells) 4

def baseIndex (acells scells idx : ℕ) : ℕ := Word.mul 32 idx (Word.add 32 acells scells)

/-- The end of the tuple in bytes, as it is compared with `value_len`. -/
def tupleEnd (w acells scells idx : ℕ) : ℕ :=
  Word.mul (8 * w) (Word.add 32 (baseIndex acells scells idx) (Word.add 32 acells scells)) 4

def dtNodeGetRegRange (w : ℕ) (h : Heap) (node : Block) (idx ptr sz : ℕ) :
    RegRange × Except Stop Bool :=
  match dtNodeFindProperty h node (.ofString "regs") with
  | none => (⟨ptr, sz, []⟩, .ok false)
  | some p =>
    match parentCells h node with
    | .error e => (⟨ptr, sz, []⟩, .error e)
    | .ok (acells, scells) =>
      if tupleEnd w acells scells idx > (h.property p).valueLen then (⟨ptr, sz, []⟩, .ok false)
      else readTuple w (h.valueOf p) (h.node node).name acells scells
        (baseIndex acells scells idx) ⟨ptr, sz, []⟩

def notDivisible (name : CString) (valueLen cells : ℕ) : Stop :=
  .panic (.ofString "dt: node \"" ++ name ++ .ofString "\": <regs> has size " ++
    decimal valueLen ++ .ofString " which isn't divisible by " ++ decimal cells ++
    .ofString " cells\n")

def dtNodeGetRegCount (w : ℕ) (h : Heap) (node : Block) : Except Stop ℕ :=
  match dtNodeFindProperty h node (.ofString "regs") with
  | none => .ok 0
  | some p => do
    let (acells, scells) ← parentCells h node
    let bytes := tupleBytes w acells scells
    if bytes = 0 then .error .divisionByZero
    else if (h.property p).valueLen % bytes ≠ 0 then
      .error (notDivisible (h.node node).name (h.property p).valueLen
        (Word.add 32 acells scells))
    else .ok ((h.property p).valueLen / bytes)

/-- A node with the property `regs` and the cell counts of its parent. -/
structure HasRegs (h : Heap) (node p : Block) (acells scells : ℕ) : Prop where
  regs : dtNodeFindProperty h node (.ofString "regs") = some p
  cells : parentCells h node = .ok (acells, scells)

section Tuple

variable {w acells scells idx baseIdx len : ℕ} {prop : Property} {name : CString} {r : RegRange}

theorem baseIndex_add :
    Word.add 32 (baseIndex acells scells idx) (Word.add 32 acells scells) =
      (idx + 1) * Word.add 32 acells scells % 2^32 := by
  rw [baseIndex, Word.mul, Word.add, Nat.mod_add_mod, Nat.succ_mul]

/-- The end of the tuple as it is compared: the product with the index, wrapped. -/
theorem tupleEnd_eq (hw : w = 4 ∨ w = 8) :
    ∃ m, 2^32 ≤ m ∧ tupleEnd w acells scells idx = (idx + 1) * tupleBytes w acells scells % m := by
  have hlt := Word.add_lt 32 acells scells
  rcases hw with rfl | rfl
  · refine ⟨2^32, le_rfl, ?_⟩
    rw [tupleEnd, baseIndex_add, tupleBytes, Word.mul, Word.mul, Nat.mod_mul_mod, Nat.mul_mod_mod,
      Nat.mul_assoc]
  · refine ⟨2^32 * 4, by decide, ?_⟩
    have hlt' : (idx + 1) * Word.add 32 acells scells % 2^32 < 2^32 :=
      Nat.mod_lt _ (Nat.two_pow_pos 32)
    rw [tupleEnd, baseIndex_add, tupleBytes, Word.mul_of_lt (by omega), Word.mul_of_lt (by omega),
      ← Nat.mul_assoc, Nat.mul_mod_mul_right]

/-- A tuple that lies in the value passes the check. -/
theorem tupleEnd_le (hw : w = 4 ∨ w = 8)
    (h : (idx + 1) * tupleBytes w acells scells ≤ len) : tupleEnd w acells scells idx ≤ len := by
  obtain ⟨m, -, hend⟩ := @tupleEnd_eq w acells scells idx hw
  rw [hend]
  exact (Nat.mod_le _ _).trans h

def addressReads (acells baseIdx : ℕ) : List ℕ :=
  if acells = 1 then [baseIdx] else if acells = 2 then [baseIdx, baseIdx + 1] else []

def sizeReads (acells scells baseIdx : ℕ) : List ℕ :=
  if scells = 1 then [acells] else if scells = 2 then [baseIdx, baseIdx + 1] else []

theorem readAddress_reads : (readAddress w prop name acells baseIdx r).1.reads =
    r.reads ++ addressReads acells baseIdx := by
  unfold readAddress addressReads
  dsimp only
  split_ifs <;> simp

theorem readSize_reads : (readSize w prop name acells scells baseIdx r).1.reads =
    r.reads ++ sizeReads acells scells baseIdx := by
  unfold readSize sizeReads
  dsimp only
  split_ifs <;> simp

theorem readAddress_ok : (readAddress w prop name acells baseIdx r).2 = .ok () ↔
    (acells = 2 → read64At prop baseIdx < 2^(8 * w)) := by
  rw [← Word.le_max_iff]
  unfold readAddress
  dsimp only
  split_ifs with h₁ h₂ h₃
  · simp [h₁]
  · simp [h₂, h₃]
  · simp [h₂, not_lt.mp h₃]
  · simp [h₂]

theorem readSize_ok : (readSize w prop name acells scells baseIdx r).2 = .ok () ↔
    (scells = 2 → read64At prop baseIdx < 2^(8 * w)) := by
  rw [← Word.le_max_iff]
  unfold readSize
  dsimp only
  split_ifs with h₁ h₂ h₃
  · simp [h₁]
  · simp [h₂, h₃]
  · simp [h₂, not_lt.mp h₃]
  · simp [h₂]

/-- The tuple is decoded unless a number of two cells is too large for a pointer. -/
theorem readTuple_true :
    (readTuple w prop name acells scells baseIdx r).2 = .ok true ↔
      (acells = 2 ∨ scells = 2 → read64At prop baseIdx < 2^(8 * w)) := by
  have haddress := @readAddress_ok w acells baseIdx prop name r
  rw [or_imp, ← haddress]
  unfold readTuple
  cases readAddress w prop name acells baseIdx r with
  | mk r₁ e₁ =>
    cases e₁ with
    | error e => simp
    | ok u =>
      have hsize := @readSize_ok w acells scells baseIdx prop name r₁
      rw [← hsize]
      dsimp only
      cases readSize w prop name acells scells baseIdx r₁ with
      | mk r₂ e₂ => cases e₂ <;> simp

theorem readTuple_reads :
    (readTuple w prop name acells scells baseIdx r).1.reads =
      r.reads ++ addressReads acells baseIdx ++
        if acells = 2 → read64At prop baseIdx < 2^(8 * w) then sizeReads acells scells baseIdx
        else [] := by
  have haddress := @readAddress_ok w acells baseIdx prop name r
  have hreads := @readAddress_reads w acells baseIdx prop name r
  unfold readTuple
  cases h₁ : readAddress w prop name acells baseIdx r with
  | mk r₁ e₁ =>
    rw [h₁] at haddress hreads
    cases e₁ with
    | error e => rw [if_neg (by simp [← haddress]), ← hreads, List.append_nil]
    | ok u =>
      rw [if_pos (haddress.mp rfl), ← hreads]
      have hsize := @readSize_reads w acells scells baseIdx prop name r₁
      dsimp only
      rw [← hsize]
      cases readSize w prop name acells scells baseIdx r₁ with
      | mk r₂ e₂ => cases e₂ <;> rfl

end Tuple

/-- The cells of a tuple that starts at `baseIdx`, in a value of `len` bytes: those
of an address or a size of one or two cells, where the code looks for them. -/
structure Within (len acells scells baseIdx : ℕ) : Prop where
  address₁ : acells = 1 → 4 * (baseIdx + 1) ≤ len
  address₂ : acells = 2 → 4 * (baseIdx + 2) ≤ len
  size₁ : scells = 1 → 4 * (acells + 1) ≤ len
  size₂ : scells = 2 → 4 * (baseIdx + 2) ≤ len

/-- The count is computed, says which indexes have a range, and no cell is read
outside the value. -/
structure CountAgrees (w : ℕ) (h : Heap) (node p : Block) (idx ptr sz : ℕ) : Prop where
  divides : dtNodeGetRegCount w h node ≠ .error .divisionByZero
  agrees : ∀ n, dtNodeGetRegCount w h node = .ok n →
    ((dtNodeGetRegRange w h node idx ptr sz).2 = .ok true ↔ idx < n)
  inside : ∀ i ∈ (dtNodeGetRegRange w h node idx ptr sz).1.reads,
    4 * (i + 1) ≤ (h.property p).valueLen

/-- A tuple has a size, and where its end, as computed, lies in the value, so do the
cells that are read, and, if tuples fill the value, so does its true end, with a
number that a pointer can hold. -/
structure Consistent (w : ℕ) (prop : Property) (acells scells idx : ℕ) : Prop where
  nonzero : tupleBytes w acells scells ≠ 0
  within : tupleEnd w acells scells idx ≤ prop.memlen →
    Within prop.memlen acells scells (baseIndex acells scells idx)
  unwrapped : tupleEnd w acells scells idx ≤ prop.memlen →
    prop.memlen % tupleBytes w acells scells = 0 →
    ((acells = 2 ∨ scells = 2 → read64At prop (baseIndex acells scells idx) < 2^(8 * w)) ↔
      (idx + 1) * tupleBytes w acells scells ≤ prop.memlen)

section Count

variable {w acells scells idx ptr sz : ℕ} {h : Heap} {node p : Block}

theorem dtNodeGetRegRange_eq (hr : HasRegs h node p acells scells) :
    dtNodeGetRegRange w h node idx ptr sz =
      if tupleEnd w acells scells idx > (h.property p).valueLen then (⟨ptr, sz, []⟩, .ok false)
      else readTuple w (h.valueOf p) (h.node node).name acells scells
        (baseIndex acells scells idx) ⟨ptr, sz, []⟩ := by
  rw [dtNodeGetRegRange, hr.regs]
  dsimp only
  rw [hr.cells]

theorem dtNodeGetRegCount_eq (hr : HasRegs h node p acells scells) :
    dtNodeGetRegCount w h node =
      if tupleBytes w acells scells = 0 then .error .divisionByZero
      else if (h.property p).valueLen % tupleBytes w acells scells ≠ 0 then
        .error (notDivisible (h.node node).name (h.property p).valueLen
          (Word.add 32 acells scells))
      else .ok ((h.property p).valueLen / tupleBytes w acells scells) := by
  rw [dtNodeGetRegCount, hr.regs]
  dsimp only
  rw [hr.cells]
  rfl

theorem dtNodeGetRegCount_divides (hr : HasRegs h node p acells scells) :
    dtNodeGetRegCount w h node ≠ .error .divisionByZero ↔ tupleBytes w acells scells ≠ 0 := by
  rw [dtNodeGetRegCount_eq hr]
  split_ifs with h₀ h₁ <;> simp [h₀, notDivisible]

theorem dtNodeGetRegCount_ok (hr : HasRegs h node p acells scells) {n : ℕ} :
    dtNodeGetRegCount w h node = .ok n ↔ tupleBytes w acells scells ≠ 0 ∧
      (h.property p).valueLen % tupleBytes w acells scells = 0 ∧
      (h.property p).valueLen / tupleBytes w acells scells = n := by
  rw [dtNodeGetRegCount_eq hr]
  split_ifs with h₀ h₁
  · simp [h₀]
  · simp [h₁]
  · simp [h₀, not_not.mp h₁]

/-- Two cells and one, at the start of the value. -/
theorem tupleEnd_first (hw : w = 4 ∨ w = 8) (hb : baseIndex 2 1 idx = 0) :
    tupleEnd w 2 1 idx = 12 := by
  rw [tupleEnd, hb]
  rcases hw with rfl | rfl <;> rfl

/-- The cells that are read all lie in the value. -/
theorem reads_within (hw : w = 4 ∨ w = 8) (hr : HasRegs h node p acells scells) :
    (∀ i ∈ (dtNodeGetRegRange w h node idx ptr sz).1.reads, 4 * (i + 1) ≤ (h.property p).valueLen) ↔
      (tupleEnd w acells scells idx ≤ (h.property p).valueLen →
        Within (h.property p).valueLen acells scells (baseIndex acells scells idx)) := by
  rw [dtNodeGetRegRange_eq hr]
  split_ifs with hend
  · simp [not_le.mpr hend]
  rw [readTuple_reads, forall_prop_of_true (not_lt.mp hend)]
  simp only [List.nil_append, List.mem_append, or_imp, forall_and]
  constructor
  · rintro ⟨haddress, hsize⟩
    have ha₁ : acells = 1 → 4 * (baseIndex acells scells idx + 1) ≤ (h.property p).valueLen :=
      fun ha => haddress _ (by simp [addressReads, ha])
    have ha₂ : acells = 2 → 4 * (baseIndex acells scells idx + 2) ≤ (h.property p).valueLen :=
      fun ha => haddress (baseIndex acells scells idx + 1) (by simp [addressReads, ha])
    refine ⟨ha₁, ha₂, fun hs => ?_, fun hs => ?_⟩
    · by_cases ha : acells = 2
      · -- after an address out of range the size is not read, but the check saw its cell
        subst ha hs
        have hin := ha₂ rfl
        by_cases hb : baseIndex 2 1 idx = 0
        · rw [tupleEnd_first hw hb] at hend
          omega
        · omega
      · refine hsize acells ?_
        rw [if_pos (fun h => absurd h ha)]
        simp [sizeReads, hs]
    · by_cases ha : acells = 2
      · exact ha₂ ha
      · refine hsize (baseIndex acells scells idx + 1) ?_
        rw [if_pos (fun h => absurd h ha)]
        simp [sizeReads, hs]
  · intro hin
    constructor
    · intro i hi
      unfold addressReads at hi
      split_ifs at hi with h₁ h₂
      · have := hin.address₁ h₁
        simp only [List.mem_singleton] at hi
        omega
      · have := hin.address₂ h₂
        simp only [List.mem_cons, List.not_mem_nil, or_false] at hi
        omega
      · cases hi
    · intro i hi
      unfold sizeReads at hi
      split_ifs at hi with h₀ h₁ h₂
      · have := hin.size₁ h₁
        simp only [List.mem_singleton] at hi
        omega
      · have := hin.size₂ h₂
        simp only [List.mem_cons, List.not_mem_nil, or_false] at hi
        omega
      · cases hi
      · cases hi

/-- The index is below the count exactly if its tuple ends in the value. -/
theorem lt_div_iff {len bytes : ℕ} (hb : bytes ≠ 0) : idx < len / bytes ↔ (idx + 1) * bytes ≤ len :=
  Nat.le_div_iff_mul_le (Nat.pos_of_ne_zero hb)

/-- A tuple that passes the check is decoded if its two-cell numbers fit. -/
theorem dtNodeGetRegRange_true (hr : HasRegs h node p acells scells) :
    (dtNodeGetRegRange w h node idx ptr sz).2 = .ok true ↔
      tupleEnd w acells scells idx ≤ (h.property p).valueLen ∧
        (acells = 2 ∨ scells = 2 →
          read64At (h.valueOf p) (baseIndex acells scells idx) < 2^(8 * w)) := by
  rw [dtNodeGetRegRange_eq hr]
  split_ifs with hend
  · simp [not_le.mpr hend]
  · rw [readTuple_true]
    exact (and_iff_right (not_lt.mp hend)).symm

section Small

variable (hlt : (idx + 1) * (acells + scells) < 2^30)

include hlt

theorem add_of_small : Word.add 32 acells scells = acells + scells := by
  have : acells + scells ≤ (idx + 1) * (acells + scells) := Nat.le_mul_of_pos_left _ idx.succ_pos
  exact Word.add_of_lt (by omega)

theorem baseIndex_of_small : baseIndex acells scells idx = idx * (acells + scells) := by
  rw [baseIndex, add_of_small hlt]
  rw [Nat.succ_mul] at hlt
  exact Word.mul_of_lt (by omega)

theorem tupleEnd_of_small (hw : w = 4 ∨ w = 8) :
    tupleEnd w acells scells idx = (idx + 1) * (acells + scells) * 4 := by
  have hbound : 2^32 ≤ 2^(8 * w) := Nat.pow_le_pow_right (by decide) (by omega)
  rw [tupleEnd, baseIndex_of_small hlt, add_of_small hlt]
  rw [Nat.succ_mul idx] at hlt ⊢
  have hsum : Word.add 32 (idx * (acells + scells)) (acells + scells) =
      idx * (acells + scells) + (acells + scells) := Word.add_of_lt (by omega)
  have hprod : (idx * (acells + scells) + (acells + scells)) * 4 < 2^(8 * w) := by omega
  rw [hsum, Word.mul_of_lt hprod]

/-- Small indexes do not wrap. -/
theorem consistent_of_small {prop : Property} (hw : w = 4 ∨ w = 8) (hpos : 0 < acells + scells)
    (hfits : acells = 2 ∨ scells = 2 →
      read64At prop (idx * (acells + scells)) < 2^(8 * w)) :
    Consistent w prop acells scells idx := by
  have hbound : 2^32 ≤ 2^(8 * w) := Nat.pow_le_pow_right (by decide) (by omega)
  have hbytes : tupleBytes w acells scells = (acells + scells) * 4 := by
    rw [tupleBytes, add_of_small hlt]
    rw [Nat.succ_mul] at hlt
    exact Word.mul_of_lt (by omega)
  refine ⟨by omega, fun h => ?_, fun h hmod => ?_⟩
  · rw [tupleEnd_of_small hlt hw, Nat.succ_mul] at h
    rw [baseIndex_of_small hlt]
    exact ⟨by omega, by omega, by omega, by omega⟩
  · rw [tupleEnd_of_small hlt hw] at h
    rw [baseIndex_of_small hlt, hbytes, ← Nat.mul_assoc]
    exact ⟨fun _ => h, fun _ => hfits⟩

end Small

end Count

/-- A node with the property `regs`, below one with the cell counts. -/
def sampleHeap (acells scells : UInt8) (regs : List UInt8) : Heap where
  calls := 8
  node
    | 0 => ⟨[1], [2, 3], none, none, .ofString ""⟩
    | _ => ⟨[], [4], some 0, none, .ofString "device"⟩
  property
    | 2 => ⟨4, .ofString "#address_cells", 5⟩
    | 3 => ⟨4, .ofString "#size_cells", 6⟩
    | _ => ⟨regs.length, .ofString "regs", 7⟩
  value
    | 5 => fun i => if i = 3 then acells else 0
    | 6 => fun i => if i = 3 then scells else 0
    | _ => fun i => (regs[i]?).getD 0

theorem sampleHeap_hasRegs (acells scells : UInt8) (regs : List UInt8) :
    HasRegs (sampleHeap acells scells regs) 1 4 acells.toNat scells.toNat where
  regs := by simp [dtNodeFindProperty, rbFind, sampleHeap]
  cells := by
    have haddress : dtNodeFindProperty (sampleHeap acells scells regs) 0
        (.ofString "#address_cells") = some 2 := by
      simp [dtNodeFindProperty, rbFind, sampleHeap]
    have hsize : dtNodeFindProperty (sampleHeap acells scells regs) 0
        (.ofString "#size_cells") = some 3 := by
      have hne : CString.ofString "#address_cells" ≠ .ofString "#size_cells" := by decide +kernel
      simp [dtNodeFindProperty, rbFind, sampleHeap, hne]
    have hacells : dtNodeGetAddressCells (sampleHeap acells scells regs) (some 0) =
        .ok acells.toNat := by
      simp only [dtNodeGetAddressCells, getCells, haddress, dtPropertyGetUint32, fdt32ToCpu_word]
      simp [sampleHeap, Heap.valueOf, Property.cell]
    have hscells : dtNodeGetSizeCells (sampleHeap acells scells regs) (some 0) =
        .ok scells.toNat := by
      simp only [dtNodeGetSizeCells, getCells, hsize, dtPropertyGetUint32, fdt32ToCpu_word]
      simp [sampleHeap, Heap.valueOf, Property.cell]
    change (do
      let a ← dtNodeGetAddressCells (sampleHeap acells scells regs) (some 0)
      let s ← dtNodeGetSizeCells (sampleHeap acells scells regs) (some 0)
      return (a, s)) = Except.ok (acells.toNat, scells.toNat)
    rw [hacells, hscells]
    rfl

/-- The property `regs` is the list of pairs, in one or two cells each. -/
structure Encodes (w : ℕ) (h : Heap) (node p : Block) (acells scells : ℕ)
    (pairs : List (ℕ × ℕ)) : Prop extends HasRegs h node p acells scells where
  addressCells : acells = 1 ∨ acells = 2
  sizeCells : scells = 1 ∨ scells = 2
  length : (h.property p).valueLen = 4 * ((acells + scells) * pairs.length)
  len : (h.property p).valueLen < 2^32
  pair : ∀ j (hj : j < pairs.length), pairs.get ⟨j, hj⟩ =
    ((h.valueOf p).value acells ((acells + scells) * j),
      (h.valueOf p).value scells ((acells + scells) * j + acells))
  fits : ∀ pair ∈ pairs, pair.1 < 2^(8 * w) ∧ pair.2 < 2^(8 * w)

/-- The call returns true with the pair in its output parameters. -/
def Decodes (w : ℕ) (h : Heap) (node : Block) (idx ptr sz : ℕ) (pair : ℕ × ℕ) : Prop :=
  (dtNodeGetRegRange w h node idx ptr sz).2 = .ok true ∧
    (dtNodeGetRegRange w h node idx ptr sz).1.ptr = pair.1 ∧
    (dtNodeGetRegRange w h node idx ptr sz).1.sz = pair.2

/-- The pair happens to be what the code finds elsewhere: a size of one cell is taken
from the first pair and stored as the address, and nothing is stored as the size; a
size of two cells is read where the address starts. -/
def Coincides (acells scells : ℕ) (first pair : ℕ × ℕ) (sz : ℕ) : Prop :=
  if scells = 1 then first.2 = pair.1 ∧ sz = pair.2
  else if acells = 1 then pair.2 = pair.1 * 2^32 + pair.1
  else pair.2 = pair.1

section Decoding

variable {w acells scells idx ptr sz : ℕ} {h : Heap} {node p : Block} {pairs : List (ℕ × ℕ)}

theorem read64At_eq (prop : Property) (i : ℕ) : read64At prop i = prop.value 2 i := by
  rw [← readCells_eq prop (.inr rfl), readCells, if_neg (by decide), if_pos rfl, read64At]

theorem Encodes.small (he : Encodes w h node p acells scells pairs) (hidx : idx < pairs.length) :
    (idx + 1) * (acells + scells) < 2^30 := by
  have hmul : (idx + 1) * (acells + scells) ≤ pairs.length * (acells + scells) :=
    Nat.mul_le_mul_right _ hidx
  have hlength := he.length
  have hlen := he.len
  rw [Nat.mul_comm] at hlength
  rw [Nat.mul_comm pairs.length] at hmul
  omega

/-- The tuple of an index of the list is decoded at its place. -/
theorem Encodes.range (hw : w = 4 ∨ w = 8) (he : Encodes w h node p acells scells pairs)
    (hidx : idx < pairs.length) :
    dtNodeGetRegRange w h node idx ptr sz =
      readTuple w (h.valueOf p) (h.node node).name acells scells ((acells + scells) * idx)
        ⟨ptr, sz, []⟩ := by
  have hsmall := he.small hidx
  have hmul : (idx + 1) * (acells + scells) ≤ pairs.length * (acells + scells) :=
    Nat.mul_le_mul_right _ hidx
  rw [dtNodeGetRegRange_eq he.toHasRegs, tupleEnd_of_small hsmall hw, baseIndex_of_small hsmall,
    Nat.mul_comm idx, if_neg]
  rw [he.length, Nat.mul_comm (acells + scells)]
  omega

section Equations

variable {prop : Property} {name : CString} {baseIdx : ℕ} {r : RegRange}

theorem readAddress_one : readAddress w prop name 1 baseIdx r =
    ({ r with ptr := prop.value 1 baseIdx, reads := r.reads ++ [baseIdx] }, .ok ()) := by
  rw [readAddress, if_pos rfl, fdt32ToCpu_word, ← readCells_eq prop (.inl rfl), readCells,
    if_pos rfl, fdt32ToCpu_word]

theorem readAddress_two (hfits : prop.value 2 baseIdx < 2^(8 * w)) :
    readAddress w prop name 2 baseIdx r =
      ({ r with ptr := prop.value 2 baseIdx, reads := r.reads ++ [baseIdx, baseIdx + 1] },
        .ok ()) := by
  have hle : ¬ prop.value 2 baseIdx > Word.max (8 * w) := not_lt.mpr (Word.le_max_iff.mpr hfits)
  rw [readAddress, if_neg (by decide), if_pos rfl, read64At_eq]
  exact if_neg hle

theorem readSize_one : readSize w prop name acells 1 baseIdx r =
    ({ r with ptr := prop.value 1 acells, reads := r.reads ++ [acells] }, .ok ()) := by
  rw [readSize, if_pos rfl, fdt32ToCpu_word, ← readCells_eq prop (.inl rfl), readCells,
    if_pos rfl, fdt32ToCpu_word]

theorem readSize_two (hfits : prop.value 2 baseIdx < 2^(8 * w)) :
    readSize w prop name acells 2 baseIdx r =
      ({ r with sz := prop.value 2 baseIdx, reads := r.reads ++ [baseIdx, baseIdx + 1] },
        .ok ()) := by
  have hle : ¬ prop.value 2 baseIdx > Word.max (8 * w) := not_lt.mpr (Word.le_max_iff.mpr hfits)
  rw [readSize, if_neg (by decide), if_pos rfl, read64At_eq]
  exact if_neg hle

/-- An address of one or two cells that fits is stored. -/
theorem readAddress_value (ha : acells = 1 ∨ acells = 2)
    (hfits : prop.value acells baseIdx < 2^(8 * w)) :
    ∃ reads, readAddress w prop name acells baseIdx r =
      ({ r with ptr := prop.value acells baseIdx, reads := reads }, .ok ()) := by
  rcases ha with rfl | rfl
  · exact ⟨_, readAddress_one⟩
  · exact ⟨_, readAddress_two hfits⟩

theorem readTuple_of_ok {r₁ r₂ : RegRange}
    (h₁ : readAddress w prop name acells baseIdx r = (r₁, .ok ()))
    (h₂ : readSize w prop name acells scells baseIdx r₁ = (r₂, .ok ())) :
    readTuple w prop name acells scells baseIdx r = (r₂, .ok true) := by
  simp only [readTuple, h₁, h₂]

/-- A size of one cell overwrites the address. -/
theorem readTuple_one (ha : acells = 1 ∨ acells = 2)
    (hfits : prop.value acells baseIdx < 2^(8 * w)) :
    ∃ reads, readTuple w prop name acells 1 baseIdx r =
      (⟨prop.value 1 acells, r.sz, reads⟩, .ok true) := by
  obtain ⟨reads, hread⟩ := @readAddress_value w acells prop name baseIdx r ha hfits
  exact ⟨reads ++ [acells], readTuple_of_ok hread readSize_one⟩

/-- A size of two cells is read at the address. -/
theorem readTuple_two (ha : acells = 1 ∨ acells = 2)
    (hfits : prop.value acells baseIdx < 2^(8 * w)) (hfits₂ : prop.value 2 baseIdx < 2^(8 * w)) :
    ∃ reads, readTuple w prop name acells 2 baseIdx r =
      (⟨prop.value acells baseIdx, prop.value 2 baseIdx, reads⟩, .ok true) := by
  obtain ⟨reads, hread⟩ := @readAddress_value w acells prop name baseIdx r ha hfits
  exact ⟨reads ++ [baseIdx, baseIdx + 1], readTuple_of_ok hread (readSize_two hfits₂)⟩

end Equations

/-- The address and the size of a pair, as the value has them. -/
theorem Encodes.value (he : Encodes w h node p acells scells pairs) (hidx : idx < pairs.length) :
    (h.valueOf p).value acells ((acells + scells) * idx) = (pairs.get ⟨idx, hidx⟩).1 ∧
      (h.valueOf p).value scells ((acells + scells) * idx + acells) =
        (pairs.get ⟨idx, hidx⟩).2 := by
  rw [he.pair idx hidx]
  exact ⟨rfl, rfl⟩

theorem Encodes.address_fits (he : Encodes w h node p acells scells pairs)
    (hidx : idx < pairs.length) :
    (h.valueOf p).value acells ((acells + scells) * idx) < 2^(8 * w) := by
  rw [(he.value hidx).1]
  exact (he.fits _ (List.get_mem _ _)).1

theorem value_one_lt (prop : Property) (i : ℕ) : prop.value 1 i < 2^32 := by
  have h₀ := (prop.data (4 * i)).toNat_lt
  have h₁ := (prop.data (4 * i + 1)).toNat_lt
  have h₂ := (prop.data (4 * i + 2)).toNat_lt
  have h₃ := (prop.data (4 * i + 3)).toNat_lt
  simp only [Property.value, Property.cell]
  omega

theorem value_two (prop : Property) (i : ℕ) :
    prop.value 2 i = prop.value 1 i * 2^32 + prop.value 1 (i + 1) := by
  simp [Property.value]

/-- What is read as a size of two cells is the size exactly in the coincidences. -/
theorem Encodes.coincides (he : Encodes w h node p acells 2 pairs) (hidx : idx < pairs.length) :
    (h.valueOf p).value 2 ((acells + 2) * idx) = (pairs.get ⟨idx, hidx⟩).2 ↔
      if acells = 1 then (pairs.get ⟨idx, hidx⟩).2 =
        (pairs.get ⟨idx, hidx⟩).1 * 2^32 + (pairs.get ⟨idx, hidx⟩).1
      else (pairs.get ⟨idx, hidx⟩).2 = (pairs.get ⟨idx, hidx⟩).1 := by
  obtain ⟨haddress, hsize⟩ := he.value hidx
  rcases he.addressCells with rfl | rfl
  · have h₁ := value_one_lt (h.valueOf p) ((1 + 2) * idx + 1)
    have h₂ := value_one_lt (h.valueOf p) ((1 + 2) * idx + 1 + 1)
    rw [if_pos rfl, ← haddress, ← hsize, value_two, value_two]
    omega
  · rw [if_neg (by decide), haddress]
    exact eq_comm

end Decoding

/-- The idx-th pair is decoded exactly where it coincides with what is read instead. -/
theorem dtNodeGetRegRange_decodes_iff (w : ℕ) (hw : w = 4 ∨ w = 8) (h : Heap) (node p : Block)
    (acells scells : ℕ) (pairs : List (ℕ × ℕ)) (he : Encodes w h node p acells scells pairs)
    (idx : ℕ) (hidx : idx < pairs.length) (ptr sz : ℕ) :
    Decodes w h node idx ptr sz (pairs.get ⟨idx, hidx⟩) ↔
      Coincides acells scells (pairs.get ⟨0, Nat.zero_lt_of_lt hidx⟩) (pairs.get ⟨idx, hidx⟩)
        sz := by
  obtain ⟨haddress, hsize⟩ := he.value hidx
  have hfits := he.address_fits hidx
  rw [Decodes, he.range hw hidx, Coincides]
  rcases he.sizeCells with rfl | rfl
  · -- the size of the first pair is stored as the address
    obtain ⟨-, hfirst⟩ := he.value (Nat.zero_lt_of_lt hidx)
    obtain ⟨reads, hread⟩ := @readTuple_one w acells (h.valueOf p) (h.node node).name _
      ⟨ptr, sz, []⟩ he.addressCells hfits
    rw [Nat.mul_zero, Nat.zero_add] at hfirst
    rw [hread, if_pos rfl, hfirst]
    simp
  · rw [if_neg (by decide), ← he.coincides hidx]
    constructor
    · rintro ⟨htrue, -, hsz⟩
      have hfits₂ := readTuple_true.mp htrue (.inr rfl)
      rw [read64At_eq] at hfits₂
      obtain ⟨reads, hread⟩ := @readTuple_two w acells (h.valueOf p) (h.node node).name _
        ⟨ptr, sz, []⟩ he.addressCells hfits hfits₂
      rw [hread] at hsz
      exact hsz
    · intro heq
      have hfits₂ : (h.valueOf p).value 2 ((acells + 2) * idx) < 2^(8 * w) := by
        rw [heq]
        exact (he.fits _ (List.get_mem _ _)).2
      obtain ⟨reads, hread⟩ := @readTuple_two w acells (h.valueOf p) (h.node node).name _
        ⟨ptr, sz, []⟩ he.addressCells hfits hfits₂
      rw [hread]
      exact ⟨rfl, haddress, heq⟩

/-- Two cells each, and a range as long as its address. -/
theorem sample_decodes :
    Decodes 8 (sampleHeap 2 2 [0, 0, 0, 0, 0, 0, 0x10, 0, 0, 0, 0, 0, 0, 0, 0x10, 0]) 1 0 0 0
      (0x1000, 0x1000) := by
  have he : Encodes 8 (sampleHeap 2 2 [0, 0, 0, 0, 0, 0, 0x10, 0, 0, 0, 0, 0, 0, 0, 0x10, 0]) 1 4
      2 2 [(0x1000, 0x1000)] :=
    { sampleHeap_hasRegs 2 2 _ with
      addressCells := .inr rfl
      sizeCells := .inr rfl
      length := rfl
      len := by decide
      pair := by decide +kernel
      fits := by decide }
  exact (dtNodeGetRegRange_decodes_iff 8 (.inr rfl) _ 1 4 2 2 _ he 0 (by decide) 0 0).mpr rfl

/-- One cell each: the size ends up as the address. -/
theorem sample_not_decodes :
    Encodes 8 (sampleHeap 1 1 [0, 0, 0x10, 0, 0, 0, 1, 0]) 1 4 1 1 [(0x1000, 0x100)] ∧
      ¬ Decodes 8 (sampleHeap 1 1 [0, 0, 0x10, 0, 0, 0, 1, 0]) 1 0 0 0 (0x1000, 0x100) := by
  refine ⟨{ sampleHeap_hasRegs 1 1 _ with
    addressCells := .inl rfl
    sizeCells := .inl rfl
    length := rfl
    len := by decide
    pair := by decide +kernel
    fits := by decide }, fun h => ?_⟩
  have hptr : (dtNodeGetRegRange 8 (sampleHeap 1 1 [0, 0, 0x10, 0, 0, 0, 1, 0]) 1 0 0 0).1.ptr =
      0x100 := by
    decide +kernel
  exact absurd (hptr.symm.trans h.2.1) (by decide)

end Gandr.DeviceTree
