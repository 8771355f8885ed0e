import Mathlib.Tactic

/-! The generator `tools/gd_stub_gen`. A line of an interface description is the
pattern it matches with its groups; what is generated is kept as the parts of
the C text that decide what it does. -/

namespace Gandr.Ioctl

/-- A word of the description or of the generated C text. -/
abbrev Text := List Char

def upper (text : Text) : Text := text.map Char.toUpper

structure Function where
  num : ℕ
  name : Text
  /-- type and name of each parameter -/
  params : List (Text × Text)
  deriving DecidableEq

inductive Mode where
  | ioctl
  | syscall
  deriving DecidableEq

def Mode.text : Mode → Text
  | ioctl => "ioctl".toList
  | syscall => "syscall".toList

/-- A line by the first pattern that matches it. A parameter is given by the
groups of `param_re`, or by its text where that does not match. -/
inductive Line where
  | whitespace
  | comment
  | function (mode name : Text) (params : List (Except Text (Text × Text)))
  | at_ (id : UInt32)
  | predef (definition : Text)
  | bad (line : Text)

structure Parser where
  mode : Mode
  line : ℕ := 0
  ctlNum : ℕ := 0
  functions : List Function := []
  predefined : List Text := []
  /-- the line and the text of every error -/
  errors : List (ℕ × Text) := []

namespace Parser

def error (p : Parser) (text : Text) : Parser := { p with errors := p.errors ++ [(p.line, text)] }

/-- A declaration for the other mode raises an exception, as its message is
formatted with too few arguments. -/
def function (p : Parser) (mode name : Text) (params : List (Except Text (Text × Text))) :
    Option Parser :=
  if p.mode.text ≠ mode then none
  else match params.mapM id with
    | .error text =>
      some (p.error ("Bad parameter declaration \"".toList ++ text ++ "\"".toList))
    | .ok params => some
        { p with
          functions := p.functions ++ [{ num := p.ctlNum, name := name, params := params }]
          ctlNum := p.ctlNum + 1 }

def processLine (p : Parser) : Line → Option Parser
  | .whitespace => some p
  | .comment => some p
  | .function mode name params => p.function mode name params
  | .at_ id => some { p with ctlNum := id.toNat }
  | .predef definition => some { p with predefined := p.predefined ++ [definition] }
  | .bad line => some (p.error ("Bad line '".toList ++ line ++ "'".toList))

def parseFile (p : Parser) (lines : List Line) : Option Parser :=
  lines.foldlM (fun p line => { p with line := p.line + 1 }.processLine line) p

/-- The parser goes on to generate files only without errors. -/
def Accepts (mode : Mode) (lines : List Line) (p : Parser) : Prop :=
  parseFile { mode := mode } lines = some p ∧ p.errors = []

/-- `TYPE` -/
def type : Mode → Text
  | .ioctl => "IOCTL".toList
  | .syscall => "SYSCALL".toList

def selfparam : Mode → List (Text × Text)
  | .ioctl => [("gd_device_t".toList, "dev_".toList)]
  | .syscall => []

end Parser

/-- The macro for the number of a function. -/
def numberMacro (mode : Mode) (f : Function) : Text :=
  "GD_".toList ++ upper f.name ++ "_".toList ++ Parser.type mode

/-- The macro for the `case` of a function. -/
def caseMacro (f : Function) : Text := "GD_MAP_".toList ++ upper f.name ++ "_IOCTL".toList

structure Prototype where
  name : Text
  params : List (Text × Text)

structure Header where
  /-- `#define` lines -/
  defines : List (Text × ℕ)
  predefined : List Text
  prototypes : List Prototype

def prototype (mode : Mode) (f : Function) : Prototype :=
  { name := "gd_".toList ++ f.name, params := Parser.selfparam mode ++ f.params }

def makeHeader (p : Parser) : Header :=
  { defines := p.functions.map fun f => (numberMacro p.mode f, f.num)
    predefined := p.predefined
    prototypes := p.functions.map (prototype p.mode) }

/-- `int gd_f(..) { return dev_->ioctl(dev_, number, args); }` -/
structure Stub where
  head : Prototype
  number : Text
  args : List Text

def makeStub (mode : Mode) (f : Function) : Stub :=
  { head := prototype mode f, number := numberMacro mode f, args := f.params.map Prod.snd }

/-- `case label: { T0 _arg0 = va_arg(*pap, T0); .. rv = _name(dev, _arg0, ..); break; }` -/
structure Case where
  label : Text
  argTypes : List Text

def makeCase (f : Function) : Case :=
  { label := numberMacro .ioctl f, argTypes := f.params.map Prod.fst }

def makeMap (p : Parser) : List (Text × Case) :=
  p.functions.map fun f => (caseMacro f, makeCase f)

end Gandr.Ioctl
