import OutlineMarkup.Document
import OutlineMarkup.Grammar.Shipped

/-!
# The command line

The arguments name one file to compile, may choose one of the shipped grammars, and may ask for no
acknowledgement in the output. An option may be shortened as long as only one option fits, and `--`
ends the options.
-/

namespace OutlineMarkup

namespace CommandLine

inductive Flag where
  | help
  | noAcknowledgement
  | grammar (name : Text)
  deriving Repr, DecidableEq

def flags : List (Text × Flag) :=
  [("--help".toList, .help), ("--no-acknowledgement".toList, .noAcknowledgement),
    ("--any".toList, .grammar "any"), ("--html".toList, .grammar "html"),
    ("--html5".toList, .grammar "html5")]

inductive Argument where
  | value (text : Text)
  | flag (f : Flag)
  /-- An option with a value, which no option takes. -/
  | assigned
  | unknown
  /-- The end of the options. -/
  | separator
  deriving Repr, DecidableEq

/-- A minus sign and digits, among which there may be a point before the last ones. -/
def isNegativeNumber : Text → Bool
  | '-' :: s =>
    match s.dropWhile Char.isDigit with
    | [] => !s.isEmpty
    | '.' :: t => !t.isEmpty && t.all Char.isDigit
    | _ => false
  | _ => false

/-- What an option with two dashes is. One that several options fit is refused at once. -/
def readLong (arg : Text) : Except Fault Argument :=
  match flags.lookup arg with
  | some f => .ok (.flag f)
  | none =>
    let name := arg.before "="
    let fitting := if flags.any (·.1 == name) then [name]
      else (flags.map (·.1)).filter (List.isPrefixOf name)
    match fitting with
    | [] => .ok (if arg.hasChar ' ' then .value arg else .unknown)
    | [full] =>
      if arg.hasChar '=' then .ok .assigned
      else .ok (((flags.lookup full).map Argument.flag).getD .unknown)
    | _ => .error .usage

def readArgument (arg : Text) : Except Fault Argument :=
  match arg with
  | '-' :: '-' :: _ => readLong arg
  | '-' :: c :: rest =>
    if c == 'h' then .ok (if rest.isEmpty then .flag .help else .assigned)
    else .ok (if isNegativeNumber arg || arg.hasChar ' ' then .value arg else .unknown)
  | _ => .ok (.value arg)

def readAll : List Text → Except Fault (List Argument)
  | [] => .ok []
  | arg :: rest =>
    if arg == "--" then .ok (.separator :: rest.map .value)
    else do
      let a ← readArgument arg
      return a :: (← readAll rest)

structure Request where
  input : Option Text := none
  grammar : Option Text := none
  acknowledge : Bool := true
  /-- Whether there are arguments that nobody takes. -/
  excess : Bool := false
  deriving Repr, DecidableEq

namespace Request

/-- Takes an option. The choice of a second grammar is refused. -/
def takeFlag (r : Request) : Flag → Except Fault Request
  | .help => .error .help
  | .noAcknowledgement => .ok { r with acknowledge := false }
  | .grammar g =>
    if r.grammar.all (· == g) then .ok { r with grammar := some g } else .error .usage

/-- Takes the arguments from the left. The input file has to be there when its name is taken. A
separator right after it belongs to it. -/
def takeAll (files : Files) (r : Request) : List Argument → Except Fault Request
  | [] => .ok r
  | .value v :: rest =>
    if r.input.isSome then takeAll files { r with excess := true } rest
    else if (Library.read? files (.project []) v).isNone then .error .missingFile
    else
      match rest with
      | .separator :: rest => takeAll files { r with input := some v } rest
      | rest => takeAll files { r with input := some v } rest
  | .flag f :: rest =>
    match r.takeFlag f with
    | .ok r => takeAll files r rest
    | .error e => .error e
  | .assigned :: _ => .error .usage
  | .unknown :: rest => takeAll files { r with excess := true } rest
  | .separator :: rest => takeAll files { r with excess := r.excess || r.input.isSome } rest

def read (files : Files) (args : List Text) : Except Fault (Text × Request) := do
  let r ← takeAll files {} (← readAll args)
  match r.input with
  | none => .error .usage
  | some input => if r.excess then .error .usage else return (input, r)

end Request

def outputName (input : Text) : Text :=
  ((input.cutLast? ".").map (·.1)).getD input ++ ".html".toList

def acknowledgement : Text :=
  "<!-- This page has been auto-generated using RapydML (http://www.pyjeon.com) -->\n"

structure Outcome where
  files : Files
  messages : Text := []
  /-- Files that were looked up and are not there. -/
  missing : List Text := []
  fault : Option Fault := none

/-- Compiles the input to the output file, which is emptied before and gets its first line also if
the compilation fails. -/
def compile (files : Files) (input : Text) (r : Request) (tags : TagTable) : Outcome :=
  let name := Library.normal (outputName input)
  let c := Document.compile tags (Table.set files name []) input
  let first := if r.acknowledge then acknowledgement else []
  let body := if c.fault.isNone then c.output else []
  { files := Table.set files name (first ++ body)
    messages := c.messages
    missing := c.missing
    fault := c.fault }

def run (files : Files) (args : List Text) : Outcome :=
  match Request.read files args with
  | .error f => { files, fault := some f }
  | .ok (input, r) =>
    match Grammar.load (r.grammar.getD "html") with
    | .error f => { files, fault := some f }
    | .ok tags => compile files input r tags

end CommandLine
end OutlineMarkup
