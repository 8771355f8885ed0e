import Gandr.Ioctl.Dispatch
import Gandr.Lib.Run

/-! The generated stubs and the ioctl maps agree: the stub of a function runs its
handler in the first map that has one. This needs numbers that differ as words
of 32 bits and names that do not clash in the generated text. -/

namespace Gandr.Ioctl

/-- A description of device functions with distinct numbers and names, `forward`
among them. -/
structure Described (p : Parser) : Prop where
  mode : p.mode = .ioctl
  numbers : (p.functions.map Function.num).Nodup
  names : (p.functions.map fun f => upper f.name).Nodup
  forward : ∃ f ∈ p.functions, f.name = forwardName

/-- Different functions have different numbers as words of 32 bits. -/
def NumbersFit (p : Parser) : Prop :=
  ∀ f ∈ p.functions, ∀ g ∈ p.functions, f.num % 2^32 = g.num % 2^32 → f = g

/-- No name is `map_` before another name, in upper case. -/
def NamesFit (p : Parser) : Prop :=
  ∀ f ∈ p.functions, ∀ g ∈ p.functions, upper f.name ≠ "MAP_".toList ++ upper g.name

/-- No parameter has the name of another one of the function, or `dev_`. -/
def ParamsFit (p : Parser) : Prop :=
  ∀ f ∈ p.functions, ("dev_".toList :: f.params.map Prod.snd).Nodup

section Macros

variable {p : Parser} {f g : Function}

theorem Described.eq_of_upper (hd : Described p) (hf : f ∈ p.functions) (hg : g ∈ p.functions)
    (h : upper f.name = upper g.name) : f = g :=
  List.inj_on_of_nodup_map hd.names hf hg h

theorem numberMacro_inj (h : numberMacro .ioctl f = numberMacro .ioctl g) :
    upper f.name = upper g.name := by
  unfold numberMacro at h
  exact List.append_cancel_left (List.append_cancel_right (List.append_cancel_right h))

theorem caseMacro_inj (h : caseMacro f = caseMacro g) : upper f.name = upper g.name := by
  unfold caseMacro at h
  exact List.append_cancel_left (List.append_cancel_right h)

/-- The two kinds of macros clash only by the word `MAP_`. -/
theorem numberMacro_eq_caseMacro :
    numberMacro .ioctl f = caseMacro g ↔ upper f.name = "MAP_".toList ++ upper g.name := by
  have hl : numberMacro .ioctl f = "GD_".toList ++ upper f.name ++ "_IOCTL".toList := by
    rw [numberMacro, List.append_assoc]
    rfl
  have hr : caseMacro g = "GD_".toList ++ ("MAP_".toList ++ upper g.name) ++ "_IOCTL".toList := by
    rw [← List.append_assoc]
    rfl
  rw [hl, hr, List.append_cancel_right_eq, List.append_cancel_left_eq]

/-- Of a list without two different entries of one name the entry is found. -/
theorem find_reverse_unique {α : Type} {l : List (Text × α)} {name : Text} {x : α}
    (hm : (name, x) ∈ l) (hu : ∀ y, (name, y) ∈ l → y = x) :
    l.reverse.find? (fun d => d.1 = name) = some (name, x) := by
  cases hf : l.reverse.find? (fun d => d.1 = name) with
  | none =>
    rw [List.find?_eq_none] at hf
    exact absurd (hf (name, x) (by simpa using hm)) (by simp)
  | some d =>
    obtain ⟨key, y⟩ := d
    obtain rfl : key = name := by simpa using List.find?_some hf
    have hmem := List.mem_of_find?_eq_some hf
    rw [hu y (by simpa using hmem)]

/-- The case of a function is defined last. -/
theorem definition_caseMacro (hd : Described p) (hf : f ∈ p.functions) :
    definition p (caseMacro f) = some (.function (makeCase f)) := by
  have hfind : ((makeMap p).map fun d => (d.1, Definition.function d.2)).reverse.find?
      (fun d => d.1 = caseMacro f) = some (caseMacro f, .function (makeCase f)) := by
    refine find_reverse_unique ?_ fun y hy => ?_
    · simp only [makeMap, List.map_map, List.mem_map, Function.comp_apply]
      exact ⟨f, hf, rfl⟩
    · simp only [makeMap, List.map_map, List.mem_map, Function.comp_apply, Prod.mk.injEq] at hy
      obtain ⟨g, hg, hname, rfl⟩ := hy
      rw [hd.eq_of_upper hg hf (caseMacro_inj hname)]
  rw [definition, definitions, List.reverse_append, List.find?_append, hfind]
  rfl

theorem definition_numberMacro (hd : Described p) (hn : NamesFit p) (hf : f ∈ p.functions) :
    definition p (numberMacro .ioctl f) = some (.object f.num) := by
  have hcase : ((makeMap p).map fun d => (d.1, Definition.function d.2)).reverse.find?
      (fun d => d.1 = numberMacro .ioctl f) = none := by
    rw [List.find?_eq_none]
    intro d hmem hname
    simp only [makeMap, List.map_map, List.mem_reverse, List.mem_map, Function.comp_apply] at hmem
    obtain ⟨g, hg, rfl⟩ := hmem
    have hname : caseMacro g = numberMacro .ioctl f := by simpa using hname
    exact hn f hf g hg (numberMacro_eq_caseMacro.mp hname.symm)
  have hfind : ((makeHeader p).defines.map fun d => (d.1, Definition.object d.2)).reverse.find?
      (fun d => d.1 = numberMacro .ioctl f) = some (numberMacro .ioctl f, .object f.num) := by
    refine find_reverse_unique ?_ fun y hy => ?_
    · simp only [makeHeader, hd.mode, List.map_map, List.mem_map, Function.comp_apply]
      exact ⟨f, hf, rfl⟩
    · simp only [makeHeader, hd.mode, List.map_map, List.mem_map, Function.comp_apply,
        Prod.mk.injEq] at hy
      obtain ⟨g, hg, hname, rfl⟩ := hy
      rw [hd.eq_of_upper hg hf (numberMacro_inj hname)]
  rw [definition, definitions, List.reverse_append, List.find?_append, hcase, hfind]
  rfl

theorem constant_numberMacro (hd : Described p) (hn : NamesFit p) (hf : f ∈ p.functions) :
    constant p (numberMacro .ioctl f) = some (f.num % 2^32) := by
  rw [constant, definition_numberMacro hd hn hf]

/-- A clash of names hides the number. -/
theorem constant_hidden (hd : Described p) (hg : g ∈ p.functions)
    (hfg : upper f.name = "MAP_".toList ++ upper g.name) :
    constant p (numberMacro .ioctl f) = none := by
  rw [constant, numberMacro_eq_caseMacro.mpr hfg, definition_caseMacro hd hg]

theorem forwardNumber_eq (hd : Described p) (hn : NamesFit p) (hf : f ∈ p.functions)
    (hname : f.name = forwardName) : forwardNumber p = some (f.num % 2^32) := by
  have hmacro : "GD_FORWARD_IOCTL".toList = numberMacro .ioctl f := by
    rw [numberMacro, hname]
    decide
  rw [forwardNumber, hmacro, constant_numberMacro hd hn hf]

end Macros

/-! ### The maps -/

section Maps

variable {p : Parser} {f : Function} {H : Type}

/-- The case that a line of a map becomes. -/
def compiledCase (line : Function × H) : ℕ × ℕ × H :=
  (line.1.num % 2^32, line.1.params.length, line.2)

theorem compileCases_eq (hd : Described p) (hn : NamesFit p) (lines : List (Function × H))
    (hl : ∀ line ∈ lines, line.1 ∈ p.functions) :
    compileCases p lines = some (lines.map compiledCase) := by
  induction lines with
  | nil => rfl
  | cons line rest ih =>
    have hline := hl line (by simp)
    have hconst : constant p (makeCase line.1).label = some (line.1.num % 2^32) :=
      constant_numberMacro hd hn hline
    rw [compileCases, definition_caseMacro hd hline]
    simp only [hconst, ih fun l hmem => hl l (by simp [hmem])]
    simp [compiledCase, makeCase]

theorem compile_eq (hd : Described p) (hn : NamesFit p) (hnum : NumbersFit p)
    (map : IoctlMap p.functions H) :
    compile p map = some (map.lines.map compiledCase) := by
  obtain ⟨forward, hmem, hname⟩ := hd.forward
  rw [compile, forwardNumber_eq hd hn hmem hname,
    compileCases_eq hd hn map.lines fun line hl => (map.known line hl).1]
  have hnodup : ((map.lines.map Prod.fst).map fun g => g.num % 2^32).Nodup := by
    refine map.once.map_on fun f hf g hg heq => ?_
    obtain ⟨line, hl, rfl⟩ := List.mem_map.mp hf
    obtain ⟨line', hl', rfl⟩ := List.mem_map.mp hg
    exact hnum _ (map.known line hl).1 _ (map.known line' hl').1 heq
  have hforward : forward.num % 2^32 ∉ (map.lines.map Prod.fst).map fun g => g.num % 2^32 := by
    intro hin
    obtain ⟨g, hg, heq⟩ := List.mem_map.mp hin
    obtain ⟨line, hl, rfl⟩ := List.mem_map.mp hg
    have := hnum _ (map.known line hl).1 _ hmem heq
    exact (map.known line hl).2 (by rw [this, hname])
  have hnumbers : (map.lines.map compiledCase).map Prod.fst =
      (map.lines.map Prod.fst).map fun g => g.num % 2^32 := by
    simp [compiledCase, Function.comp_def]
  rw [← hnumbers] at hforward hnodup
  exact if_pos (List.nodup_cons.mpr ⟨hforward, hnodup⟩)

/-- The `switch` selects the line of the function. -/
theorem find_compiledCase (hnum : NumbersFit p) (hf : f ∈ p.functions)
    (lines : List (Function × H)) (hl : ∀ line ∈ lines, line.1 ∈ p.functions) :
    (lines.map compiledCase).find? (fun c => c.1 = f.num % 2^32) =
      (lines.find? fun line => line.1 = f).map compiledCase := by
  rw [List.find?_map]
  congr 1
  refine List.find?_congr fun line hmem => ?_
  exact decide_eq_decide.mpr ⟨hnum _ (hl line hmem) _ hf, fun h => by simp only [compiledCase, h]⟩

theorem vaArgs_value {V : Type} (args : List V) :
    vaArgs args.length (args.map .value) = some args := by
  induction args with
  | nil => rfl
  | cons v args ih => simp [vaArgs, ih]

theorem lookup_of_mem {V : Type} {pairs : List (Text × V)} (hn : (pairs.map Prod.fst).Nodup) :
    ∀ pair ∈ pairs, pairs.lookup pair.1 = some pair.2 := by
  induction pairs with
  | nil => simp
  | cons head rest ih =>
    rw [List.map_cons, List.nodup_cons] at hn
    intro pair hpair
    rcases List.mem_cons.mp hpair with rfl | hpair
    · exact List.lookup_cons_self
    · have hne : pair.1 ≠ head.1 := fun h => hn.1 (h ▸ List.mem_map_of_mem hpair)
      have hbeq : (pair.1 == head.1) = false := by simpa using hne
      rw [List.lookup_cons, hbeq]
      exact ih hn.2 pair hpair

theorem mapM_lookup {V : Type} {look : Text → Option V} {pairs : List (Text × V)}
    (h : ∀ pair ∈ pairs, look pair.1 = some pair.2) :
    (pairs.map Prod.fst).mapM look = some (pairs.map Prod.snd) := by
  induction pairs with
  | nil => rfl
  | cons head rest ih =>
    simp [h head (by simp), ih fun pair hpair => h pair (by simp [hpair])]

/-- Every name in the call of a stub stands for its own argument. -/
theorem passed_eq {V : Type} {names : List Text} {args : List V} (hn : names.Nodup)
    (hl : names.length = args.length) :
    names.mapM (fun name => (names.zip args).lookup name) = some args := by
  have hfst : (names.zip args).map Prod.fst = names := List.map_fst_zip (le_of_eq hl)
  have hsnd : (names.zip args).map Prod.snd = args := List.map_snd_zip (le_of_eq hl.symm)
  have hnodup : ((names.zip args).map Prod.fst).Nodup := by rwa [hfst]
  have hlook : ((names.zip args).map Prod.fst).mapM (fun name => (names.zip args).lookup name) =
      some ((names.zip args).map Prod.snd) := mapM_lookup (lookup_of_mem hnodup)
  rwa [hfst, hsnd] at hlook

end Maps

/-! ### The calls -/

/-- What a call of `f` should do: run the handler, or return -1. -/
def expected {Dev V W : Type} (handler : Option (Handler Dev V W)) (dev : Dev) (args : List V)
    (w : W) : ℤ × W :=
  match handler with
  | some handler => handler dev args w
  | none => (-1, w)

theorem postForward_other {V : Type} {forward ioctl : ℕ} (h : ioctl ≠ forward)
    (pap : List (Arg V)) : postForward forward ioctl pap = some (ioctl, pap) := by
  rw [postForward.eq_def, if_neg h]

theorem postForward_wrapped {V : Type} (forward ioctl : ℕ) (pap rest : List (Arg V)) :
    postForward forward forward (.unsigned ioctl :: .vaList pap :: rest) =
      postForward forward ioctl pap := by
  rw [postForward.eq_def, if_pos rfl]

section Calls

variable {p : Parser} {f : Function} {Dev V W : Type} {dev : Dev} {args : List V} {w : W}
  {forward ioctl : ℕ} {ap : List (Arg V)}

/-- A map runs its handler on the call it finds in its arguments. -/
theorem runMap_eq (hd : Described p) (hn : NamesFit p) (hnum : NumbersFit p)
    (hf : f ∈ p.functions) (hargs : f.params.length = args.length)
    (hforward : forwardNumber p = some forward)
    (hpost : postForward forward ioctl ap = some (f.num % 2^32, args.map .value))
    (map : IoctlMap p.functions (Handler Dev V W))
    (default : ℕ → List (Arg V) → Option (ℤ × W)) :
    runMap p map default dev ioctl ap w =
      match map.handler f with
      | some handler => some (handler dev args w)
      | none => default (f.num % 2^32) (args.map .value) := by
  rw [runMap, hforward, compile_eq hd hn hnum map]
  simp only [hpost, find_compiledCase hnum hf map.lines fun line hl => (map.known line hl).1,
    IoctlMap.handler]
  cases hfind : map.lines.find? fun line => line.1 = f with
  | none => rfl
  | some line =>
    obtain rfl : line.1 = f := by simpa using List.find?_some hfind
    simp [compiledCase, hargs, vaArgs_value]

theorem run_eq (hd : Described p) (hn : NamesFit p) (hnum : NumbersFit p)
    (hf : f ∈ p.functions) (hargs : f.params.length = args.length)
    (hforward : forwardNumber p = some forward) (hne : f.num % 2^32 ≠ forward)
    (hpost : postForward forward ioctl ap = some (f.num % 2^32, args.map .value))
    (chain : Chain p.functions (Handler Dev V W)) :
    run p chain dev ioctl ap w = some (expected (chain.handler f) dev args w) := by
  induction chain generalizing ioctl ap with
  | last map =>
    rw [run, runMap_eq hd hn hnum hf hargs hforward hpost]
    cases hh : map.handler f <;> simp [Chain.handler, expected, hh]
  | forward map next ih =>
    -- the call is wrapped once and unwrapped by the next map
    have hwrapped : postForward forward forward
        [.unsigned (f.num % 2^32), .vaList (args.map .value)] =
        some (f.num % 2^32, args.map .value) := by
      rw [postForward_wrapped, postForward_other hne]
    rw [run, runMap_eq hd hn hnum hf hargs hforward hpost]
    cases hh : map.handler f with
    | none =>
      simp only [hforward, Option.bind_some, Chain.handler, hh, Option.none_or]
      exact ih hwrapped
    | some handler => simp [Chain.handler, expected, hh]
  | forwardBase map base =>
    have hpassed := postForward_other hne (args.map Arg.value)
    rw [run, runMap_eq hd hn hnum hf hargs hforward hpost]
    cases hh : map.handler f with
    | none =>
      simp only [runMap_eq hd hn hnum hf hargs hforward hpassed]
      cases hb : base.handler f <;> simp [Chain.handler, expected, hh, hb]
    | some handler => simp [Chain.handler, expected, hh]

theorem validHeader_iff (hm : p.mode = .ioctl) : validHeader p = true ↔ ParamsFit p := by
  simp only [validHeader, makeHeader, List.all_eq_true, List.mem_map, forall_exists_index,
    and_imp, forall_apply_eq_imp_iff₂, decide_eq_true_eq, prototype, hm]
  rfl

/-- The stub passes its arguments on as they are. -/
theorem callStub_run (hd : Described p) (hn : NamesFit p) (hp : ParamsFit p)
    (hf : f ∈ p.functions) (hargs : f.params.length = args.length)
    (chain : Chain p.functions (Handler Dev V W)) :
    callStub p f chain dev args w = run p chain dev (f.num % 2^32) (args.map .value) w := by
  have hpassed := passed_eq (List.nodup_cons.mp (hp f hf)).2 (by simpa using hargs)
  rw [callStub, if_pos ((validHeader_iff hd.mode).mpr hp)]
  simp only [makeStub, hd.mode, constant_numberMacro hd hn hf, hpassed]

theorem callStub_eq (hd : Described p) (hn : NamesFit p) (hnum : NumbersFit p)
    (hp : ParamsFit p) (hf : f ∈ p.functions) (hname : f.name ≠ forwardName)
    (hargs : f.params.length = args.length) (chain : Chain p.functions (Handler Dev V W)) :
    callStub p f chain dev args w = some (expected (chain.handler f) dev args w) := by
  obtain ⟨fwd, hmem, hfwd⟩ := hd.forward
  have hne : f.num % 2^32 ≠ fwd.num % 2^32 := fun h => hname (by rw [hnum f hf fwd hmem h, hfwd])
  have hpost := postForward_other hne (args.map Arg.value)
  rw [callStub_run hd hn hp hf hargs]
  exact run_eq hd hn hnum hf hargs (forwardNumber_eq hd hn hmem hfwd) hne hpost chain

end Calls

/-- The stub of every function but `forward` runs its handler in the first map of
the chain that has one. -/
def Agrees (Dev V W : Type) (p : Parser) : Prop :=
  ∀ f ∈ p.functions, f.name ≠ forwardName →
    ∀ (chain : Chain p.functions (Handler Dev V W)) (dev : Dev) (args : List V) (w : W),
      f.params.length = args.length →
      callStub p f chain dev args w = some (expected (chain.handler f) dev args w)

/-! ### The names and numbers that are needed -/

section Needed

variable {p : Parser} {f g : Function} {Dev V W : Type}

def emptyMap (functions : List Function) (H : Type) : IoctlMap functions H :=
  { lines := [], known := by simp, once := by simp }

/-- A map with one line. -/
def oneMap {functions : List Function} {H : Type} (g : Function) (handler : H)
    (hg : g ∈ functions) (hname : g.name ≠ forwardName) : IoctlMap functions H :=
  { lines := [(g, handler)], known := by simpa using ⟨hg, hname⟩, once := by simp }

/-- Values are no wrapped call. -/
theorem postForward_value (forward : ℕ) (args : List V) :
    postForward forward forward (args.map .value) = none := by
  rw [postForward.eq_def, if_pos rfl]
  cases args <;> rfl

theorem runMap_unread {functions : List Function} {map : IoctlMap functions (Handler Dev V W)}
    {default : ℕ → List (Arg V) → Option (ℤ × W)} {dev : Dev} {w : W} {forward ioctl : ℕ}
    {ap : List (Arg V)} (hforward : forwardNumber p = some forward)
    (hpost : postForward forward ioctl ap = none) :
    runMap p map default dev ioctl ap w = none := by
  rw [runMap, hforward]
  cases compile p map with
  | none => rfl
  | some cases => simp only [hpost]

/-- A map with one line does not compile or runs its handler on the number. -/
theorem runMap_oneMap (hd : Described p) (hn : NamesFit p) (hg : g ∈ p.functions)
    (hname : g.name ≠ forwardName) (handler : Handler Dev V W)
    {default : ℕ → List (Arg V) → Option (ℤ × W)} {dev : Dev} {w : W} {values : List V} :
    runMap p (oneMap g handler hg hname) default dev (g.num % 2^32) (values.map .value) w = none ∨
      ∃ args, runMap p (oneMap g handler hg hname) default dev (g.num % 2^32)
        (values.map .value) w = some (handler dev args w) := by
  obtain ⟨fwd, hmem, hfwd⟩ := hd.forward
  have hforward := forwardNumber_eq hd hn hmem hfwd
  by_cases hnum : g.num % 2^32 = fwd.num % 2^32
  · exact .inl (runMap_unread hforward (by rw [hnum, postForward_value]))
  · have hcases : compileCases p (oneMap g handler hg hname).lines =
        some [compiledCase (g, handler)] :=
      compileCases_eq hd hn _ fun line hl => ((oneMap g handler hg hname).known line hl).1
    have hnodup : (fwd.num % 2^32 :: [compiledCase (g, handler)].map Prod.fst).Nodup := by
      simpa [compiledCase] using Ne.symm hnum
    have hcompile : compile p (oneMap g handler hg hname) = some [compiledCase (g, handler)] := by
      rw [compile, hforward, hcases]
      exact if_pos hnodup
    rw [runMap, hforward, hcompile]
    simp only [postForward_other hnum, List.find?_cons, compiledCase, decide_true]
    cases vaArgs g.params.length (values.map Arg.value) with
    | none => exact .inl rfl
    | some args => exact .inr ⟨args, rfl⟩

variable [Inhabited Dev] [Inhabited V] [Inhabited W]

theorem Agrees.callStub_default (ha : Agrees Dev V W p) (hf : f ∈ p.functions)
    (hname : f.name ≠ forwardName) (chain : Chain p.functions (Handler Dev V W)) :
    callStub p f chain default (List.replicate f.params.length default) default =
      some (expected (chain.handler f) default (List.replicate f.params.length default)
        default) :=
  ha f hf hname chain default _ default (by simp)

theorem Agrees.paramsFit (ha : Agrees Dev V W p) (hm : p.mode = .ioctl) (hf : f ∈ p.functions)
    (hname : f.name ≠ forwardName) : ParamsFit p := by
  have hcall := ha.callStub_default hf hname (.last (emptyMap _ _))
  rw [← validHeader_iff hm]
  by_contra hvalid
  rw [callStub, if_neg hvalid] at hcall
  cases hcall

theorem Agrees.namesFit (ha : Agrees Dev V W p) (hd : Described p) : NamesFit p := by
  intro f hf g hg hclash
  have hname : f.name ≠ forwardName := by
    intro hname
    rw [hname] at hclash
    have hhead : (upper forwardName).head? = some 'M' := by
      rw [hclash]
      rfl
    exact absurd hhead (by decide)
  have hcall := ha.callStub_default hf hname (.last (emptyMap _ _))
  simp only [callStub, makeStub, hd.mode, constant_hidden hd hg hclash] at hcall
  split at hcall <;> cases hcall

/-- Of two numbers that are one word, the one that is not mapped is not told from
the other. -/
theorem Agrees.number_ne (ha : Agrees Dev V W p) (hd : Described p) (hf : f ∈ p.functions)
    (hname : f.name ≠ forwardName) (hg : g ∈ p.functions) (hfg : g ≠ f) :
    f.num % 2^32 ≠ g.num % 2^32 := by
  intro hnum
  have hn := ha.namesFit hd
  have hp := ha.paramsFit hd.mode hf hname
  by_cases hgname : g.name = forwardName
  · have hcall := ha.callStub_default hf hname (.last (emptyMap _ _))
    rw [callStub_run hd hn hp hf (by simp), run,
      runMap_unread (forwardNumber_eq hd hn hg hgname) (by rw [hnum, postForward_value])] at hcall
    cases hcall
  · have hcall := ha.callStub_default hf hname (.last (oneMap g (fun _ _ w => (0, w)) hg hgname))
    rw [callStub_run hd hn hp hf (by simp), run, hnum] at hcall
    rcases runMap_oneMap hd hn hg hgname (fun _ _ w => (0, w)) with hnone | hzero
    · rw [hnone] at hcall
      cases hcall
    · obtain ⟨args, hzero⟩ := hzero
      rw [hzero] at hcall
      simp [expected, Chain.handler, IoctlMap.handler, oneMap, hfg] at hcall

theorem Agrees.numbersFit (ha : Agrees Dev V W p) (hd : Described p) : NumbersFit p := by
  intro f hf g hg hnum
  by_contra hne
  by_cases hname : f.name = forwardName
  · have hgname : g.name ≠ forwardName := fun hgname =>
      hne (hd.eq_of_upper hf hg (by rw [hname, hgname]))
    exact ha.number_ne hd hg hgname hf hne hnum.symm
  · exact ha.number_ne hd hf hname hg (Ne.symm hne) hnum

end Needed

theorem processLine_mode {p p' : Parser} {line : Line} (h : p.processLine line = some p') :
    p'.mode = p.mode := by
  cases line with
  | function mode name params =>
    simp only [Parser.processLine, Parser.function] at h
    split at h
    · cases h
    · split at h <;> cases h <;> rfl
  | _ => cases h; rfl

theorem parseFile_mode {p p' : Parser} {lines : List Line} (h : p.parseFile lines = some p') :
    p'.mode = p.mode :=
  foldlM_invariant (P := fun q => q.mode = p.mode)
    (fun _ _ _ hline hmode => (processLine_mode hline).trans hmode) h rfl

/-- A line of a function of the ioctl interface. -/
def ioctlLine (name : String) (params : List (String × String)) : Line :=
  .function "ioctl".toList name.toList (params.map fun p => .ok (p.1.toList, p.2.toList))

/-- The parser after a description that it accepts. -/
def parsed (lines : List Line) : Parser :=
  (Parser.parseFile { mode := .ioctl } lines).getD { mode := .ioctl }

/-- Numbers that run over the last word: the one of `openat` is 2^32. -/
def wrappingLines : List Line :=
  [.at_ 1, ioctlLine "forward" [("unsigned ", "num"), ("va_list ", "ap")],
    .at_ 0, ioctlLine "read" [],
    .at_ 0xFFFFFFFF, ioctlLine "close" [], ioctlLine "openat" []]

/-- The first lines of `bal/ioctl.txt`. -/
def fileLines : List Line :=
  [.at_ 0, ioctlLine "forward" [("unsigned ", "num"), ("va_list ", "ap")],
    ioctlLine "openat" [("gd_device_t *", "p_fd"), ("const char *", "name")],
    ioctlLine "read" [("void *", "buf"), ("size_t ", "nbytes"), ("size_t *", "nbytesread")],
    ioctlLine "write"
      [("const void *", "buf"), ("size_t ", "nbytes"), ("size_t *", "nbyteswritten")],
    ioctlLine "seek" [("int64_t ", "offset"), ("int ", "whence"), ("int64_t *", "new_offset")],
    ioctlLine "pread" [("void *", "buf"), ("size_t ", "nbytes"), ("size_t *", "nbytesread"),
      ("uint64_t ", "offset")],
    ioctlLine "pwrite" [("const void *", "buf"), ("size_t ", "nbytes"),
      ("size_t *", "nbyteswritten"), ("uint64_t ", "offset")],
    ioctlLine "close" []]

end Gandr.Ioctl
