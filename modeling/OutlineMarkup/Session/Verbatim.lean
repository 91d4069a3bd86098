import OutlineMarkup.Session
import OutlineMarkup.Shell

/-!
# Verbatim blocks

Declaring a kind of verbatim block, and collecting a block line by line until a line is not deeper
than the one that opened it. Functions that go on with other lines take the handling of a line as
an argument.
-/

namespace OutlineMarkup

namespace Compile

def surroundings (isCommand : Bool) (attributes : List Text) : Except Fault (Text × Text) :=
  match attributes with
  | [] => .ok ([], [])
  | [element] => do return (← Definition.read element).tags
  | [opening, closing] => .ok (opening.inner ++ ['\n'], closing.inner ++ ['\n'])
  | many =>
    let n := many.length
    .error (.rejected (if isCommand then .codeBlockArity n else .verbatimArity n))

/-- Carries out a line `name = verbatim(...)`, `verbatim_line(...)` or `code_block(...)`, where the
last attribute of a code block is the rest of its command line. -/
def declareVerbatim (line : Text) : Compile Unit := do
  match line.cut? "=" with
  | none => throw .outOfRange
  | some (name, value) =>
    let d ← Definition.read value
    let isCommand := d.name == "code_block"
    if isCommand && d.attributes.isEmpty then throw .outOfRange
    let (opening, closing) ← surroundings isCommand
      (if isCommand then d.attributes.dropLast else d.attributes)
    let kind : VerbatimKind ←
      if d.name == "verbatim_line" then pure .oneLine
      else if d.name == "verbatim" then pure .lines
      else if isCommand then pure (.command (Text.inner (d.attributes.getLastD [])))
      else throw .unassigned
    modify fun s => { s with verbatims := s.verbatims.set name.trim ⟨opening, closing, kind⟩ }

def markVariables : List Text → Compile Unit
  | [] => pure ()
  | v :: rest => do
    let s ← get
    let ofMethod :=
      match s.defining.bind s.methods.get? with
      | some m => m.parameters.contains v || m.locals.contains v
      | none => false
    if s.globals.has v then set { s with globalMarks := s.globalMarks ++ [v] }
    else if ofMethod then
      set { s with methodMarks := s.methodMarks ++ [v], dropMarks := true }
    else throw (.rejected (.undeclaredVariable v))
    markVariables rest

def openBlock (line : Text) (depth : Nat) : Compile Unit := do
  let d ← Definition.read line.trim
  modify fun s => { s with block := some d.name, globalMarks := [], methodMarks := [] }
  markVariables d.attributes
  modify fun s => { s with blockLevel := depth }
  if !(← get).isDefining then
    enter depth (some none)
    modify fun s => { s with lastElement := none }
    push none

/-- Line feeds with the spaces and tabs after them become single spaces. -/
def joinLines : (inGap : Bool) → Text → Text
  | _, [] => []
  | inGap, c :: s =>
    if c == '\n' then ' ' :: joinLines true s
    else if inGap && (c == ' ' || c == '\t') then joinLines true s
    else c :: joinLines false s

def processBlock (name : Text) (form : VerbatimForm) (text : Text) : Except Fault Text :=
  match form.kind with
  | .lines => .ok text
  | .oneLine => .ok (joinLines false text ++ ['\n'])
  | .command rest =>
    let (out, errors) := Shell.run text rest
    if errors.isEmpty then .ok (out ++ ['\n']) else .error (.complaint name errors)

def addToBlock (line : Text) : Compile Unit := do
  let s ← get
  let line ← Method.evaluateVerbatim s.globals (line.drop (s.blockLevel + 1)) s.globalMarks
  set { s with blockText := s.blockText ++ line }

def writeBlock (name : Text) (form : VerbatimForm) : Compile Unit := do
  let s ← get
  let text ← processBlock name form s.blockText
  set { s with blockText := text }
  if !form.closing.isEmpty then
    let space ← blanks s.blockLevel
    modify fun s =>
      { s with blockText := space ++ form.opening ++ text ++ space ++ form.closing }
  write (← get).blockText
  modify fun s => { s with blockText := [] }
  closeLast

/-- Handles a line of a block, the one that opens it included. A line that is not deeper ends the
block and is then handled itself; the result says whether it was. -/
def verbatimLine (handle : Text → Compile Unit) (line : Text) : Compile Bool := do
  let depth ← depthOf line
  match (← get).block with
  | none =>
    openBlock line depth
    return false
  | some name =>
    match (← get).verbatims.get? name with
    | none => throw .unknownKey
    | some form =>
      let s ← get
      if depth > s.blockLevel then
        if !s.isDefining then addToBlock line
        return false
      else
        if !s.isDefining then writeBlock name form
        modify fun s => { s with block := none }
        handle line
        return true

end Compile
end OutlineMarkup
