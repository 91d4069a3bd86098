import OutlineMarkup.Assignment
import OutlineMarkup.Attributes
import OutlineMarkup.Reference

/-!
# Methods

A method is a named list of lines with parameters. Running it binds the parameters and yields its
lines with variables replaced and arithmetic carried out. A loop is a method that runs on the
variables of its surroundings; other methods run on a copy of them.
-/

namespace OutlineMarkup

/-- A line of a method; of a verbatim line only the marked variables are replaced. -/
structure BodyLine where
  verbatim : Bool
  text : Text
  marked : List Text
  deriving Repr, DecidableEq

structure Method where
  name : Text
  parameters : List Text
  ownVariables : Bool
  lines : List BodyLine := []
  /-- Names to which a line of the method assigns. -/
  locals : List Text := []
  /-- Tells apart methods that are defined one after another under the same name. -/
  serial : Nat := 0
  deriving Repr, DecidableEq

namespace Method

/-- Adds a line, its compound assignment written in full. -/
def addLine (m : Method) (line : Text) (marked : List Text) : Method :=
  let full := Assignment.expand line
  let locals :=
    match full.cut? Assignment.sign with
    | some (target, _) => m.locals ++ [target.trim]
    | none => m.locals
  { m with lines := m.lines ++ [⟨false, full, marked⟩], locals }

def addVerbatim (m : Method) (line : Text) (marked : List Text) : Method :=
  { m with lines := m.lines ++ [⟨true, line, marked⟩] }

/-! ## Running -/

def isCall (line : Text) : Bool :=
  Text.isName (line.takeWhile Text.isWordChar) &&
    match (line.dropWhile Text.isWordChar).dropWhile (· == ' ') with
    | '(' :: s => Text.hasChar (s.takeWhile (· != '\n')) ')'
    | _ => false

/-- A line with its variables replaced and its arithmetic carried out, that of a call for each
attribute on its own. -/
def evaluate (vars : Variables) (line : Text) : Except Fault Text := do
  let line ← Reference.resolve vars line []
  if isCall line.trim then
    let d ← Definition.read line
    let attributes ← d.attributes.mapM Arithmetic.computePart
    return line.takeWhile Text.isBlank ++ d.name ++ '(' :: Text.join "," attributes ++ [')']
  else Arithmetic.computePart line

/-- Binds parameters to arguments, in which backslashes are doubled to survive replacement. The
variables are given back also if arguments are missing. -/
def bindFrom (vars : Variables) : (parameters arguments : List Text) → Variables × Bool
  | [], _ => (vars, true)
  | _ :: _, [] => (vars, false)
  | p :: ps, a :: as => bindFrom (vars.set p (a.replace "\\" "\\\\")) ps as

def bindArguments (m : Method) (arguments : List Text) (vars : Variables) :
    Except Fault Unit × Variables :=
  match bindFrom vars m.parameters arguments with
  | (vars, true) => (.ok (), vars)
  | (vars, false) =>
    (.error (.rejected (.argumentCount m.name m.parameters.length arguments.length)), vars)

def evaluateVerbatim (vars : Variables) (line : Text) (marked : List Text) : Except Fault Text :=
  marked.foldlM (fun line name =>
    match vars.get? name with
    | some value => Reference.replaceMarked name value line
    | none => .error .unknownKey) line

/-- Runs one line: what it yields, which is nothing for an assignment, and the variables after
it. -/
def runLine (vars : Variables) (l : BodyLine) : Except Fault (Option Text × Variables) :=
  if l.verbatim then do return (some (← evaluateVerbatim vars l.text l.marked), vars)
  else
    match l.text.split Assignment.sign with
    | [line] => do return (some (← evaluate vars line), vars)
    | [target, value] => do
      let value ← evaluate vars value.trim
      return (none, vars.set target.trim value)
    | _ => .error .wrongType

/-- What a run yields up to its end or its fault, and the variables then. -/
structure Run where
  yielded : List (Option Text)
  vars : Variables
  fault : Option Fault
  deriving Repr, DecidableEq

def runLines (vars : Variables) : List BodyLine → Run
  | [] => ⟨[], vars, none⟩
  | l :: ls =>
    match runLine vars l with
    | .error f => ⟨[], vars, some f⟩
    | .ok (out, vars) =>
      let r := runLines vars ls
      { r with yielded := out :: r.yielded }

def run (m : Method) (arguments : List Text) (vars : Variables) : Run :=
  match m.bindArguments arguments vars with
  | (.error f, vars) => ⟨[], vars, some f⟩
  | (.ok (), vars) => runLines vars m.lines

end Method
end OutlineMarkup
