import Gandr.Ioctl.Generator

/-! What the generated stubs and the ioctl maps of `include/gd_bal.h` do with a
call. A step with no value stands for text that does not compile and for a
variable argument list that is read past its end or at the wrong type. -/

namespace Gandr.Ioctl

/-- A variable argument; forwarding passes a number and an argument list. -/
inductive Arg (V : Type) where
  | value (v : V)
  | unsigned (n : ℕ)
  | vaList (args : List (Arg V))

/-- A function that a map gives for an ioctl: with the device and the arguments
it changes the world and returns a result. -/
abbrev Handler (Dev V W : Type) := Dev → List V → W → ℤ × W

inductive Definition where
  | object (value : ℕ)
  | function (body : Case)

/-- The macros of `gd_ioctl.h`, then those of `gd_ioctl_map.h`. -/
def definitions (p : Parser) : List (Text × Definition) :=
  (makeHeader p).defines.map (fun d => (d.1, .object d.2)) ++
    (makeMap p).map fun d => (d.1, .function d.2)

/-- What a macro stands for; a later definition replaces an earlier one. -/
def definition (p : Parser) (name : Text) : Option Definition :=
  ((definitions p).reverse.find? fun d => d.1 = name).map Prod.snd

/-- The value of a macro as an `unsigned`. The name of a macro with parameters is
not replaced where no bracket follows, and nothing else declares it. -/
def constant (p : Parser) (name : Text) : Option ℕ :=
  match definition p name with
  | some (.object value) => some (value % 2^32)
  | _ => none

def forwardName : Text := "forward".toList

/-- `GD_FORWARD_IOCTL` -/
def forwardNumber (p : Parser) : Option ℕ := constant p "GD_FORWARD_IOCTL".toList

/-- The lines `GD_MAP_.._IOCTL(handler)` of a map, one at most for a function;
`forward` has its case in every map already. -/
structure IoctlMap (functions : List Function) (H : Type) where
  lines : List (Function × H)
  known : ∀ line ∈ lines, line.1 ∈ functions ∧ line.1.name ≠ forwardName
  once : (lines.map Prod.fst).Nodup

/-- A map with what its end does: `GD_END_IOCTL_MAP`, `GD_END_IOCTL_MAP_FORWARD`
or `GD_END_IOCTL_MAP_FORWARD_BASE`. Those that forward name `ap`, which a base map
does not have, so a base map is the last one. -/
inductive Chain (functions : List Function) (H : Type) where
  | last (map : IoctlMap functions H)
  | forward (map : IoctlMap functions H) (next : Chain functions H)
  | forwardBase (map base : IoctlMap functions H)

/-- The cases of a map: number, count of arguments and handler. -/
def compileCases {H : Type} (p : Parser) : List (Function × H) → Option (List (ℕ × ℕ × H))
  | [] => some []
  | line :: rest =>
    match definition p (caseMacro line.1) with
    | some (.function body) =>
      match constant p body.label, compileCases p rest with
      | some n, some cases => some ((n, body.argTypes.length, line.2) :: cases)
      | _, _ => none
    | _ => none

/-- Two cases of one number do not compile. -/
def compile {functions : List Function} {H : Type} (p : Parser) (map : IoctlMap functions H) :
    Option (List (ℕ × ℕ × H)) :=
  match forwardNumber p, compileCases p map.lines with
  | some forward, some cases =>
    if (forward :: cases.map Prod.fst).Nodup then some cases else none
  | _, _ => none

/-- From `postForward` to the other cases: a forwarded call is unwrapped. -/
def postForward {V : Type} (forward ioctl : ℕ) (pap : List (Arg V)) : Option (ℕ × List (Arg V)) :=
  if ioctl = forward then
    match pap with
    | .unsigned ioctl :: .vaList pap :: _ => postForward forward ioctl pap
    | _ => none
  else some (ioctl, pap)

def vaArgs {V : Type} : ℕ → List (Arg V) → Option (List V)
  | 0, _ => some []
  | n + 1, .value v :: rest => (vaArgs n rest).map (v :: ·)
  | _ + 1, _ => none

section Run

variable {Dev V W : Type} {functions : List Function}

/-- The body of a map; `default` is its last case. -/
def runMap (p : Parser) (map : IoctlMap functions (Handler Dev V W))
    (default : ℕ → List (Arg V) → Option (ℤ × W)) (dev : Dev) (ioctl : ℕ) (pap : List (Arg V))
    (w : W) : Option (ℤ × W) :=
  match forwardNumber p, compile p map with
  | some forward, some cases =>
    match postForward forward ioctl pap with
    | some (ioctl, pap) =>
      match cases.find? fun c => c.1 = ioctl with
      | some (_, count, handler) => (vaArgs count pap).map fun args => handler dev args w
      | none => default ioctl pap
    | none => none
  | _, _ => none

def run (p : Parser) : Chain functions (Handler Dev V W) → Dev → ℕ → List (Arg V) → W →
    Option (ℤ × W)
  | .last map, dev, ioctl, ap, w => runMap p map (fun _ _ => some (-1, w)) dev ioctl ap w
  | .forward map next, dev, ioctl, ap, w =>
    runMap p map (fun ioctl pap => (forwardNumber p).bind fun forward =>
      run p next dev forward [.unsigned ioctl, .vaList pap] w) dev ioctl ap w
  | .forwardBase map base, dev, ioctl, ap, w =>
    runMap p map (fun ioctl pap => runMap p base (fun _ _ => some (-1, w)) dev ioctl pap w)
      dev ioctl ap w

/-- The prototypes of `gd_ioctl.h` have no parameter twice. -/
def validHeader (p : Parser) : Bool :=
  (makeHeader p).prototypes.all fun proto => decide (proto.params.map Prod.snd).Nodup

/-- A call of the stub of `f` on a device with the chain of maps. -/
def callStub (p : Parser) (f : Function) (chain : Chain functions (Handler Dev V W)) (dev : Dev)
    (args : List V) (w : W) : Option (ℤ × W) :=
  let stub := makeStub p.mode f
  let bound := (f.params.map Prod.snd).zip args
  if validHeader p then
    match constant p stub.number, stub.args.mapM fun name => bound.lookup name with
    | some ioctl, some passed => run p chain dev ioctl (passed.map .value) w
    | _, _ => none
  else none

/-- The handler that a map gives for a function. -/
def IoctlMap.handler {H : Type} (map : IoctlMap functions H) (f : Function) : Option H :=
  (map.lines.find? fun line => line.1 = f).map Prod.snd

/-- The handler of the first map that has one. -/
def Chain.handler {H : Type} (f : Function) : Chain functions H → Option H
  | .last map => map.handler f
  | .forward map next => (map.handler f).or (next.handler f)
  | .forwardBase map base => (map.handler f).or (base.handler f)

end Run

end Gandr.Ioctl
