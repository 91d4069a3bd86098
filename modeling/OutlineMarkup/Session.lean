import OutlineMarkup.ArrayIndex
import OutlineMarkup.Engine
import OutlineMarkup.Grammar
import OutlineMarkup.Library
import OutlineMarkup.Method
import OutlineMarkup.Pattern.Reader

/-!
# Sessions

The state of a compilation: the markup written so far, the elements that are open, variables,
methods, loops, template engines and verbatim blocks. The module holds the operations that write
markup, open and close elements and set variables.
-/

namespace OutlineMarkup

/-- A loop that is being collected: the method of its body, its level and its items. -/
structure Loop where
  name : Text
  level : Int
  items : List Text
  deriving Repr, DecidableEq

inductive VerbatimKind where
  | lines
  /-- Lines are joined by single spaces. -/
  | oneLine
  /-- The block is handed to a command line, of which this is the rest. -/
  | command (rest : Text)
  deriving Repr, DecidableEq

/-- A declared kind of verbatim block with the text around it. -/
structure VerbatimForm where
  opening : Text
  closing : Text
  kind : VerbatimKind
  deriving Repr, DecidableEq

structure Session where
  tags : TagTable
  files : Files := []
  place : Place := .project []
  indentation : Indentation := {}
  /-- What closes the open lines, innermost first; nothing for a line that needs no end tag. -/
  elements : List (Option Text) := []
  /-- The markup written so far, last character first. -/
  written : Text := []
  /-- The element of the latest tag, if the latest markup was one. -/
  lastElement : Option Text := none
  globals : Variables := []
  /-- The method whose lines are being collected. -/
  defining : Option Text := none
  methods : Table Method := []
  /-- Number of methods and loops defined so far. -/
  serials : Nat := 0
  /-- The variables of methods that run or have run, by serial number. -/
  frames : List (Nat × Variables) := []
  /-- Loops that are being collected, innermost first. -/
  loops : List Loop := []
  loopCount : Nat := 0
  engines : Table Engine := []
  imported : List Text := []
  /-- Files of the project that were looked up and are not there. -/
  missing : List Text := []
  verbatims : Table VerbatimForm := []
  /-- The verbatim block that is being collected. -/
  block : Option Text := none
  blockLevel : Nat := 0
  blockText : Text := []
  /-- Global variables and method variables that the block marks. -/
  globalMarks : List Text := []
  methodMarks : List Text := []
  /-- Whether the line that opens the block is yet to lose its method variables. -/
  dropMarks : Bool := false
  /-- Messages to the user, last character first. -/
  reported : Text := []

namespace Session

/-- The markup written so far. -/
def output (s : Session) : Text := s.written.reverse

def messages (s : Session) : Text := s.reported.reverse

def isDefining (s : Session) : Bool := s.defining.isSome

/-- How deep lines may lead to lines. A line leads to others by calling a method, by ending a loop
or a block, or by an import, and every method, loop and import is either known or written in one
of the files; the constant leaves room for the shipped modules and for methods that call
themselves. -/
def depthBound (s : Session) : Nat :=
  1000 + 4 * (s.methods.length + s.loops.length + Library.size s.files)

end Session

abbrev Compile := Action Session

namespace Compile

/-! ## Writing -/

def report (line : Text) : Compile Unit :=
  modify fun s => { s with reported := '\n' :: line.reverse ++ s.reported }

def unescapeDollars (s : Text) : Text := s.replace "\\$" "$"

def write (line : Text) : Compile Unit :=
  modify fun s => { s with written := (unescapeDollars line).reverse ++ s.written }

/-- What stays of the output, last character first, up to a position, which counts from the end if
negative. -/
def keptUpTo (written : Text) (position : Int) : Text :=
  if position < 0 then written.drop position.natAbs
  else written.drop (written.length - position.toNat)

def overwrite (line : Text) (position : Int) : Compile Unit :=
  modify fun s =>
    { s with written := (unescapeDollars line).reverse ++ keptUpTo s.written position }

/-! ## Levels and elements -/

def depthOf (line : Text) : Compile Nat := do
  let s ← get
  let (depth, t) ← s.indentation.depth line
  set { s with indentation := t }
  return depth

def blanks (level : Int) : Compile Text := do
  (← get).indentation.blanks level

def setLevel (level : Int) : Compile Unit :=
  modify fun s => { s with indentation := { s.indentation with level } }

/-- Whether an end tag belongs to an element at the current level. The name of the element is
taken as a pattern. -/
def endsElement (element tag : Text) : Compile Bool := do
  let s ← get
  let start := (← s.indentation.blanks s.indentation.level) ++ "</".toList ++ element ++ ['>']
  if Pattern.isLiteral start then return start.isPrefixOf tag
  else
    let (p, _) ← Pattern.read ('^' :: start)
    return p.occursIn tag

/-- Closes the innermost open line. An element right after its start tag takes the short form
unless its rule says otherwise, and an element that is never closed gets nothing. -/
def closeLast : Compile Unit := do
  let s ← get
  match s.elements with
  | [] => throw .outOfRange
  | top :: rest =>
    set { s with elements := rest }
    match top, s.lastElement with
    | none, _ => return
    | some tag, none => write tag
    | some tag, some element =>
      match s.tags.rule? element with
      | none =>
        report ("This logic should not trigger, please inform RapydML developers, ".toList
          ++ "provide the contents of your .pyml file as well.".toList)
        throw (.rejected (.unknownTag element))
      | some rule =>
        match rule.closing with
        | .single => return
        | .separate => write tag
        | .normal => if ← endsElement element tag then overwrite " />\n" (-2) else write tag

def push (entry : Option Text) : Compile Unit :=
  modify fun s => { s with elements := entry :: s.elements }

/-- Enters a line at a level: closes what the level closes, and adds the entry, if there is one to
add. While a method is being defined nothing happens. -/
def enter (level : Int) (entry : Option (Option Text)) : Compile Unit := do
  if (← get).isDefining then return
  let depth ← depthOf ((← blanks level) ++ ['|'])
  Action.times closeLast (← (← get).indentation.closings depth)
  match entry with
  | some e => push e
  | none => pure ()
  modify fun s => { s with indentation := s.indentation.place depth }

/-! ## Variables -/

def resolve (text : Text) (ignored : List Text) : Compile Text := do
  ArrayIndex.resolve (← Reference.resolve (← get).globals text ignored)

def setVariable (name value : Text) : Compile Unit :=
  modify fun s => { s with globals := s.globals.set name value }

def assignEach (text : Text) : List Text → Compile Unit
  | [] => pure ()
  | target :: rest => do
    match target.head? with
    | none => throw .outOfRange
    | some c =>
      if c == '$' then setVariable target.trimRight (← resolve text [])
      else throw (.rejected (.constantTarget target.trimRight))
    assignEach text rest

def assign (line : Text) : Compile Unit := do
  let parts := line.split Assignment.sign
  if parts.length ≤ 1 then throw (.rejected (.noAssignment (parts.headD []).trim))
  assignEach (Text.trimLeft (parts.getLastD [])) parts.dropLast

def assignCompound (line : Text) : Compile Text := do
  let target := Assignment.target line
  let full := Assignment.expand line
  match full.split Assignment.sign with
  | [_, value] =>
    let value ← Arithmetic.compute (← resolve value.trim [])
    setVariable target value
    return target
  | _ :: _ :: _ :: _ => throw (.rejected (.severalAssignments full))
  | _ => throw .outOfRange

end Compile
end OutlineMarkup
