import OutlineMarkup.Action
import OutlineMarkup.Attributes
import OutlineMarkup.Call
import OutlineMarkup.Table

/-!
# Template engines

An engine has a format, into which the text of each of its methods is put. A method may have a
closing text and branches, as `else` is one of `if`. The engine keeps the calls that are open with
the level at which each of them was made.
-/

namespace OutlineMarkup

structure EngineMethod where
  opening : Text
  arity : Nat
  closing : Option Text
  branches : List Text
  deriving Repr, DecidableEq

structure Engine where
  format : Text
  methods : Table EngineMethod := []
  /-- Open calls with their levels, the latest first; a call inside a line has no level. -/
  openCalls : List (Text × Option Int) := []
  deriving Repr, DecidableEq

namespace Engine

/-- An engine with the format for its tags, each of which is a line. -/
def ofFormat (format : Text) : Engine := { format := format ++ ['\n'] }

def addMethod (e : Engine) (name opening : Text) (closing : Option Text) : Engine :=
  { e with methods := e.methods.set name ⟨opening, opening.occurrences "%s", closing, []⟩ }

def addBranch (e : Engine) (owner branch : Text) : Except Fault Engine :=
  match e.methods.get? owner with
  | some m =>
    let extended := { m with branches := m.branches ++ [branch] }
    .ok { e with methods := e.methods.set owner extended }
  | none => .error .unknownKey

def method (e : Engine) (name : Text) : Except Fault EngineMethod :=
  match e.methods.get? name with
  | some m => .ok m
  | none => .error .unknownKey

def isBranch (e : Engine) (name : Text) (level : Option Int) : Except Fault Bool :=
  match e.openCalls with
  | [] => .ok false
  | (top, topLevel) :: _ => do
    return (← e.method top).branches.contains name && level == topLevel

def rise (level below : Option Int) : Except Fault Int :=
  match level, below with
  | some a, some b => .ok (a - b)
  | _, _ => .error .wrongType

/-- Places a call among the open ones: a branch stays in its call, a call that is not deeper
closes the open calls from its level on and takes their place, and a deeper one is left out. -/
def placeCall (name : Text) (level : Option Int) : Action Engine Unit := do
  let e ← get
  match e.openCalls with
  | [] => set { e with openCalls := [(name, level)] }
  | (_, topLevel) :: _ =>
    let r ← rise level topLevel
    if ← e.isBranch name level then return
    else if r < 1 then
      let closed := (1 - r).toNat
      if closed ≤ e.openCalls.length then
        set { e with openCalls := (name, level) :: e.openCalls.drop closed }
      else
        set { e with openCalls := [] }
        throw .outOfRange
    else if r > 1 then throw (.rejected .indentation)

def tag (e : Engine) (contents : Text) : Except Fault Text :=
  Expression.format e.format [.text contents]

def call (name : Text) (args : List Text) (level : Option Int) : Action Engine Text := do
  let m ← (← get).method name
  if args.length ≠ m.arity then
    throw (.rejected (.engineArgumentCount name m.arity args.length))
  placeCall name level
  let contents ← Expression.format m.opening (args.map .text)
  (← get).tag contents

def finish (name : Text) (close : Bool) : Action Engine (Option Text) := do
  if close then modify fun e => { e with openCalls := e.openCalls.drop 1 }
  let e ← get
  match (← e.method name).closing with
  | none => return none
  | some closing => return some (← e.tag closing)

end Engine

structure EngineDeclaration where
  engine : Text
  method : Text
  source : Definition
  deriving Repr, DecidableEq

namespace EngineDeclaration

def read (line : Text) : Except Fault EngineDeclaration :=
  match line.cut? "=" with
  | none => .error (.rejected .engineTarget)
  | some (target, value) => do
    let source ← Definition.read value
    match target.trimRight.cutLast? "." with
    | some (engine, method) => return ⟨engine, method, source⟩
    | none => .error .outOfRange

end EngineDeclaration
end OutlineMarkup
