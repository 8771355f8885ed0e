import Gandr.Ioctl.Agreement

/-! What the parser of `tools/gd_stub_gen` accepts. The numbers of the functions
run through blocks, which the `at` lines start anywhere; the types of the
parameters go into `va_arg` as they are written. What a type name or an
enumeration of a header stands for is a parameter. -/

namespace Gandr.Ioctl

/-- The C types that differ for `va_arg`. -/
inductive CType where
  | bool
  | char
  | signedChar
  | unsignedChar
  | short
  | unsignedShort
  | int
  | unsigned
  | long
  | unsignedLong
  | float
  | double
  | pointer
  /-- a structure, a union or what else the promotions do not concern -/
  | other
  deriving DecidableEq

/-- The default argument promotions. -/
def CType.promote : CType → CType
  | bool => int
  | char => int
  | signedChar => int
  | unsignedChar => int
  | short => int
  | unsignedShort => int
  | float => double
  | t => t

/-- The words of a type. -/
def words (type : Text) : List Text :=
  (type.splitOnP fun c => c.isWhitespace || c = '*').filter (· ≠ [])

def tagWords : List Text := ["struct".toList, "union".toList]

def narrowWords : List Text := ["_Bool".toList, "float".toList, "char".toList, "short".toList]

def wideWords : List Text :=
  ["double".toList, "long".toList, "unsigned".toList, "int".toList, "signed".toList]

def qualifiers : List Text := ["const".toList, "volatile".toList, "restrict".toList]

/-- One of the words is in the list. -/
def Has (ws keys : List Text) : Prop := ∃ w ∈ ws, w ∈ keys

instance (ws keys : List Text) : Decidable (Has ws keys) :=
  inferInstanceAs (Decidable (∃ w ∈ ws, w ∈ keys))

/-- The words that are not qualifiers. -/
def unqualified (ws : List Text) : List Text := ws.filter (· ∉ qualifiers)

/-- The type that a list of specifiers names. -/
def specified (names : List Text → CType) (ws : List Text) : CType :=
  if Has ws tagWords then .other
  else if "_Bool".toList ∈ ws then .bool
  else if "float".toList ∈ ws then .float
  else if "char".toList ∈ ws then
    if "unsigned".toList ∈ ws then .unsignedChar
    else if "signed".toList ∈ ws then .signedChar
    else .char
  else if "short".toList ∈ ws then
    if "unsigned".toList ∈ ws then .unsignedShort else .short
  else if "double".toList ∈ ws then .double
  else if "long".toList ∈ ws then
    if "unsigned".toList ∈ ws then .unsignedLong else .long
  else if "unsigned".toList ∈ ws then .unsigned
  else if "int".toList ∈ ws then .int
  else if "signed".toList ∈ ws then .int
  else names (unqualified ws)

def cType (names : List Text → CType) (type : Text) : CType :=
  if '*' ∈ type then .pointer else specified names (words type)

/-- Distinct numbers, and types that `va_arg` fetches as they were passed. -/
structure Dispatchable (names : List Text → CType) (p : Parser) : Prop where
  numbers : (p.functions.map Function.num).Nodup
  types : ∀ f ∈ p.functions, ∀ param ∈ f.params,
    (cType names param.1).promote = cType names param.1

/-- The first number of a block of functions and how many there are; `base` and
`len` are those of the block before the lines. -/
def blocksFrom (base len : ℕ) : List Line → List (ℕ × ℕ)
  | [] => [(base, len)]
  | .at_ id :: rest => (base, len) :: blocksFrom id.toNat 0 rest
  | .function _ _ _ :: rest => blocksFrom base (len + 1) rest
  | _ :: rest => blocksFrom base len rest

/-- Two blocks have no number in common. -/
def Apart (a b : ℕ × ℕ) : Prop :=
  a.2 = 0 ∨ b.2 = 0 ∨ a.1 + a.2 ≤ b.1 ∨ b.1 + b.2 ≤ a.1

instance : DecidableRel Apart := fun _ _ => inferInstanceAs (Decidable (_ ∨ _ ∨ _ ∨ _))

/-- The parameter types that a line declares. -/
def Line.types : Line → List Text
  | .function _ _ params => params.filterMap fun param => param.toOption.map Prod.fst
  | _ => []

/-- A type that is a pointer, a structure or a union, or has no narrow word and,
where it is only a name, does not stand for a narrow type. -/
def WideType (names : List Text → CType) (type : Text) : Prop :=
  '*' ∈ type ∨ Has (words type) tagWords ∨
    ¬ Has (words type) narrowWords ∧
      (Has (words type) wideWords ∨
        (names (unqualified (words type))).promote = names (unqualified (words type)))

instance (names : List Text → CType) (type : Text) : Decidable (WideType names type) :=
  inferInstanceAs (Decidable (_ ∨ _ ∨ _ ∧ _))

section Types

variable {names : List Text → CType} {ws : List Text} {type : Text}

theorem has_cons {key : Text} {keys : List Text} : Has ws (key :: keys) ↔ key ∈ ws ∨ Has ws keys := by
  simp only [Has, List.mem_cons]
  constructor
  · rintro ⟨w, hw, rfl | hkeys⟩
    · exact .inl hw
    · exact .inr ⟨w, hw, hkeys⟩
  · rintro (hw | ⟨w, hw, hkeys⟩)
    · exact ⟨key, hw, .inl rfl⟩
    · exact ⟨w, hw, .inr hkeys⟩

theorem not_has_nil : ¬ Has ws [] := by simp [Has]

theorem specified_narrow (htag : ¬ Has ws tagWords) (h : Has ws narrowWords) :
    (specified names ws).promote ≠ specified names ws := by
  simp only [narrowWords, has_cons, not_has_nil, or_false] at h
  rw [specified, if_neg htag]
  split_ifs
  · decide
  · decide
  · decide
  · decide
  · decide
  · decide
  · decide
  all_goals simp_all

theorem specified_wide (htag : ¬ Has ws tagWords) (hnarrow : ¬ Has ws narrowWords)
    (h : Has ws wideWords) : (specified names ws).promote = specified names ws := by
  simp only [narrowWords, wideWords, has_cons, not_has_nil, or_false, not_or] at hnarrow h
  obtain ⟨h₁, h₂, h₃, h₄⟩ := hnarrow
  rw [specified, if_neg htag, if_neg h₁, if_neg h₂, if_neg h₃, if_neg h₄]
  split_ifs
  · rfl
  · rfl
  · rfl
  · rfl
  · rfl
  · rfl
  · simp_all

theorem specified_name (htag : ¬ Has ws tagWords) (hnarrow : ¬ Has ws narrowWords)
    (hwide : ¬ Has ws wideWords) : specified names ws = names (unqualified ws) := by
  simp only [narrowWords, wideWords, has_cons, not_has_nil, or_false, not_or] at hnarrow hwide
  obtain ⟨h₁, h₂, h₃, h₄⟩ := hnarrow
  obtain ⟨h₅, h₆, h₇, h₈, h₉⟩ := hwide
  rw [specified, if_neg htag, if_neg h₁, if_neg h₂, if_neg h₃, if_neg h₄, if_neg h₅, if_neg h₆,
    if_neg h₇, if_neg h₈, if_neg h₉]

/-- The promotions leave a type alone if and only if it is wide as it is written. -/
theorem cType_promote : (cType names type).promote = cType names type ↔
    WideType names type := by
  unfold cType WideType
  by_cases hstar : '*' ∈ type
  · simp [hstar, CType.promote]
  by_cases htag : Has (words type) tagWords
  · have hspec : specified names (words type) = .other := if_pos htag
    simp [hstar, htag, hspec, CType.promote]
  by_cases hnarrow : Has (words type) narrowWords
  · simp [hstar, htag, hnarrow, specified_narrow htag hnarrow]
  by_cases hwide : Has (words type) wideWords
  · simp [hstar, htag, hnarrow, hwide, specified_wide htag hnarrow hwide]
  · simp only [hstar, htag, hnarrow, hwide, specified_name htag hnarrow hwide, if_false, false_or,
      not_false_eq_true, true_and]

end Types

section Numbers

/-- The numbers that lines give out from the counter `n` on. -/
def numbersFrom : ℕ → List Line → List ℕ
  | _, [] => []
  | _, .at_ id :: rest => numbersFrom id.toNat rest
  | n, .function _ _ _ :: rest => n :: numbersFrom (n + 1) rest
  | n, _ :: rest => numbersFrom n rest

theorem blocks_numbers (base len : ℕ) (lines : List Line) :
    (blocksFrom base len lines).flatMap (fun b => List.range' b.1 b.2) =
      List.range' base len ++ numbersFrom (base + len) lines := by
  induction lines generalizing base len with
  | nil => simp [blocksFrom, numbersFrom]
  | cons line rest ih =>
    cases line with
    | at_ id => simp [blocksFrom, numbersFrom, ih]
    | function mode name params =>
      rw [blocksFrom, numbersFrom, ih, List.range'_1_concat, List.append_assoc, Nat.add_assoc]
      rfl
    | _ => exact ih base len

theorem disjoint_range' {a b : ℕ × ℕ} :
    List.Disjoint (List.range' a.1 a.2) (List.range' b.1 b.2) ↔ Apart a b := by
  simp only [List.disjoint_left, List.mem_range'_1, Apart]
  constructor
  · intro h
    by_contra hc
    simp only [not_or, not_le] at hc
    exact h (a := max a.1 b.1) (by omega) (by omega)
  · intro h x hx hx'
    omega

theorem nodup_numbers (lines : List Line) :
    (numbersFrom 0 lines).Nodup ↔ (blocksFrom 0 0 lines).Pairwise Apart := by
  have hblocks := blocks_numbers 0 0 lines
  rw [List.range'_zero, List.nil_append] at hblocks
  rw [← hblocks, List.nodup_flatMap]
  constructor
  · rintro ⟨-, hapart⟩
    exact hapart.imp disjoint_range'.mp
  · intro hapart
    exact ⟨fun b _ => List.nodup_range', hapart.imp disjoint_range'.mpr⟩

end Numbers

section Runs

variable {p p' : Parser}

/-- The types that `va_arg` is given for a function. -/
def Function.types (f : Function) : List Text := f.params.map Prod.fst

theorem mapM_types {params : List (Except Text (Text × Text))} {ps : List (Text × Text)}
    (h : params.mapM id = .ok ps) :
    params.filterMap (fun param => param.toOption.map Prod.fst) = ps.map Prod.fst := by
  induction params generalizing ps with
  | nil =>
    obtain rfl : [] = ps := Except.ok.inj h
    rfl
  | cons param rest ih =>
    rw [List.mapM_cons] at h
    cases param with
    | error text => cases h
    | ok param =>
      cases hrest : rest.mapM id with
      | error text =>
        rw [hrest] at h
        cases h
      | ok ps' =>
        rw [hrest] at h
        obtain rfl : param :: ps' = ps := Except.ok.inj h
        rw [List.map_cons, ← ih hrest]
        rfl

theorem error_errors (text : Text) : (p.error text).errors ≠ [] := by simp [Parser.error]

/-- A line without an error gives its numbers and its types to the new functions. -/
theorem processLine_declares {line : Line} (h : p.processLine line = some p')
    (he : p'.errors = []) :
    p.errors = [] ∧ ∃ new : List Function, p'.functions = p.functions ++ new ∧
      (∀ rest, numbersFrom p.ctlNum (line :: rest) =
        new.map Function.num ++ numbersFrom p'.ctlNum rest) ∧
      line.types = new.flatMap Function.types := by
  cases line with
  | function mode name params =>
    simp only [Parser.processLine, Parser.function] at h
    split at h
    · cases h
    · split at h
      · obtain rfl := Option.some.inj h
        exact absurd he (error_errors _)
      · rename_i ps hps
        obtain rfl := Option.some.inj h
        refine ⟨he, [{ num := p.ctlNum, name := name, params := ps }], rfl, fun rest => rfl, ?_⟩
        rw [List.flatMap_singleton]
        exact mapM_types hps
  | bad text =>
    obtain rfl := Option.some.inj h
    exact absurd he (error_errors _)
  | _ =>
    obtain rfl := Option.some.inj h
    exact ⟨he, [], (List.append_nil _).symm, fun rest => rfl, rfl⟩

/-- So does a file. -/
theorem parseFile_declares {lines : List Line} (h : p.parseFile lines = some p')
    (he : p'.errors = []) :
    p.errors = [] ∧ ∃ new : List Function, p'.functions = p.functions ++ new ∧
      numbersFrom p.ctlNum lines = new.map Function.num ∧
      lines.flatMap Line.types = new.flatMap Function.types := by
  induction lines generalizing p with
  | nil =>
    obtain rfl : p = p' := Option.some.inj h
    exact ⟨he, [], (List.append_nil _).symm, rfl, rfl⟩
  | cons line rest ih =>
    rw [Parser.parseFile, List.foldlM_cons] at h
    obtain ⟨p₁, hline, hrest⟩ := Option.bind_eq_some_iff.mp h
    obtain ⟨he₁, later, hlater, hnumbers, htypes⟩ := ih hrest
    obtain ⟨he₀, new, hnew, hnumber, htype⟩ := processLine_declares hline he₁
    refine ⟨he₀, new ++ later, ?_, ?_, ?_⟩
    · rw [hlater, hnew, List.append_assoc]
    · rw [List.map_append, ← hnumbers]
      exact hnumber rest
    · rw [List.flatMap_cons, List.flatMap_append, htypes, htype]

end Runs

/-- The names of the standard headers for a machine of 32 bits. -/
def standardNames (ws : List Text) : CType :=
  if ws = ["bool".toList] then .bool
  else if ws = ["int8_t".toList] then .signedChar
  else if ws = ["uint8_t".toList] then .unsignedChar
  else if ws = ["int16_t".toList] then .short
  else if ws = ["uint16_t".toList] then .unsignedShort
  else if ws = ["uint32_t".toList] ∨ ws = ["size_t".toList] then .unsigned
  else if ws = ["gd_device_t".toList] ∨ ws = ["va_list".toList] then .pointer
  else .other

/-- The last lines of `bal/ioctl.txt`. -/
def i2cLines : List Line :=
  [.comment, .at_ 0x20200,
    ioctlLine "i2c_start" [("uint16_t ", "address"), ("bool ", "writing")],
    ioctlLine "i2c_stop" []]

/-- Two blocks that start at the same number. -/
def sameLines : List Line :=
  [.at_ 0x10100, ioctlLine "device_get_dt_node" [("struct dt_node **", "node")],
    .at_ 0x10100, ioctlLine "bus_get_child_reg_count"
      [("gd_device_t ", "child"), ("unsigned *", "count")]]

end Gandr.Ioctl
