import OutlineMarkup.Text.Numeral

/-!
# Command lines of code blocks

A code block hands its text to a command line that starts with `echo` and the text. A command line
is a list of pipelines; the commands known are `echo`, `cat`, `tr`, `sort`, `true` and `false`.
Output is collected from both channels.
-/

namespace OutlineMarkup

namespace Shell

/-! ## Words and signs -/

inductive Piece where
  | word (s : Text)
  | sign (s : Text)
  deriving Repr, DecidableEq

inductive Mode where
  | plain
  | single
  | double
  deriving Repr, DecidableEq

def flush (current : Option Text) : List Piece :=
  match current with
  | some w => [.word w]
  | none => []

def extend (current : Option Text) (c : Char) : Option Text := some (current.getD [] ++ [c])

def channel (current : Option Text) : Text :=
  match current with
  | some [c] => if c == '1' || c == '2' then [c] else []
  | _ => []

/-- Signs of two characters and more come first. -/
def signs : List Text :=
  [">>", ">&", "&&", "||", ">", "<", "|", ";", "&", "\n"].map String.toList

/-- The pieces of a command line from inside a word; none if quotes stay open. The counter skips
characters of a sign or escape dealt with. -/
def piecesFrom : (skip : Nat) → Mode → Option Text → Text → Option (List Piece)
  | _, .plain, current, [] => some (flush current)
  | _, _, _, [] => none
  | k + 1, mode, current, _ :: s => piecesFrom k mode current s
  | 0, .single, current, c :: s =>
    if c == '\'' then piecesFrom 0 .plain current s
    else piecesFrom 0 .single (extend current c) s
  | 0, .double, current, c :: s =>
    if c == '"' then piecesFrom 0 .plain current s
    else
      let d := s.head?.getD c
      if c == '\\' && (d == '"' || d == '\\' || d == '$') && !s.isEmpty then
        piecesFrom 1 .double (extend current d) s
      else piecesFrom 0 .double (extend current c) s
  | 0, .plain, current, c :: s =>
    if c == ' ' || c == '\t' then (piecesFrom 0 .plain none s).map (flush current ++ ·)
    else if c == '\'' then piecesFrom 0 .single (some (current.getD [])) s
    else if c == '"' then piecesFrom 0 .double (some (current.getD [])) s
    else if c == '\\' && !s.isEmpty then
      piecesFrom 1 .plain (extend current (s.head?.getD c)) s
    else
      match signs.find? (·.isPrefixOf (c :: s)) with
      | some t =>
        let before := if c == '>' then channel current else []
        let pieces := if before.isEmpty then flush current else []
        (piecesFrom (t.length - 1) .plain none s).map (pieces ++ .sign (before ++ t) :: ·)
      | none => piecesFrom 0 .plain (extend current c) s

/-! ## Commands -/

/-- Where a channel leads. -/
inductive Target where
  | output
  | errors
  | file (name : Text) (append : Bool)
  deriving Repr, DecidableEq

structure Command where
  words : List Text := []
  input : Option Text := none
  output : Target := .output
  errors : Target := .errors

inductive Connector where
  | always
  | onSuccess
  | onFailure
  deriving Repr, DecidableEq

/-- Commands that feed one another, and when they are run. -/
structure Pipeline where
  when : Connector
  commands : List Command

/-- Adds a piece to the last command of the last pipeline. A redirection takes the next word. -/
def readPieces (when : Connector) (done : List Command) (current : Command) :
    List Piece → List Pipeline
  | [] => [⟨when, done ++ [current]⟩]
  | .word w :: rest => readPieces when done { current with words := current.words ++ [w] } rest
  | .sign t :: rest =>
    let continued (next : Connector) := ⟨when, done ++ [current]⟩ :: readPieces next [] {} rest
    match String.ofList t, rest with
    | "|", rest => readPieces when (done ++ [current]) {} rest
    | "&&", _ => continued .onSuccess
    | "||", _ => continued .onFailure
    | ">&", .word ['2'] :: rest | "1>&", .word ['2'] :: rest =>
      readPieces when done { current with output := current.errors } rest
    | "2>&", .word ['1'] :: rest =>
      readPieces when done { current with errors := current.output } rest
    | ">", .word f :: rest | "1>", .word f :: rest =>
      readPieces when done { current with output := .file f false } rest
    | ">>", .word f :: rest | "1>>", .word f :: rest =>
      readPieces when done { current with output := .file f true } rest
    | "2>", .word f :: rest =>
      readPieces when done { current with errors := .file f false } rest
    | "2>>", .word f :: rest =>
      readPieces when done { current with errors := .file f true } rest
    | "<", .word f :: rest => readPieces when done { current with input := some f } rest
    | _, _ => continued .always

/-! ## What the commands do -/

structure Outcome where
  output : Text := []
  errors : Text := []
  success : Bool := true

abbrev Files := List (Text × Text)

/-- Escapes in the text of `echo`; `\c` ends the output. The flag says whether it did. -/
def echoEscapes : (skip : Nat) → Text → Text × Bool
  | _, [] => ([], false)
  | k + 1, _ :: s => echoEscapes k s
  | 0, c :: s =>
    let put (t : Text) (skip : Nat) : Text × Bool :=
      let (r, ended) := echoEscapes skip s
      (t ++ r, ended)
    if c != '\\' then put [c] 0
    else
      match s with
      | '\\' :: _ => put ['\\'] 1
      | 'a' :: _ => put ['\x07'] 1
      | 'b' :: _ => put ['\x08'] 1
      | 'c' :: _ => ([], true)
      | 'f' :: _ => put ['\x0c'] 1
      | 'n' :: _ => put ['\n'] 1
      | 'r' :: _ => put ['\r'] 1
      | 't' :: _ => put ['\t'] 1
      | 'v' :: _ => put ['\x0b'] 1
      | '0' :: r =>
        let digits := (r.take 3).takeWhile fun d => '0' ≤ d && d ≤ '7'
        let n := (Text.digitsFrom? 8 0 digits).getD 0
        put [Char.ofNat (n % 256)] (digits.length + 1)
      | _ => put ['\\'] 0

def echo (args : List Text) : Text :=
  let (args, newline) : List Text × Text :=
    match args with
    | ['-', 'n'] :: rest => (rest, [])
    | args => (args, ['\n'])
  let (s, ended) := echoEscapes 0 (Text.join " " args)
  if ended then s else s ++ newline

def cat (files : Files) (stdin : Text) (args : List Text) : Outcome :=
  if args.isEmpty then { output := stdin }
  else
    args.foldl (fun (r : Outcome) a =>
      if a == ['-'] then { r with output := r.output ++ stdin }
      else
        match files.lookup a with
        | some s => { r with output := r.output ++ s }
        | none =>
          { r with
            errors := r.errors ++ "cat: ".toList ++ a ++ ": No such file or directory\n".toList
            success := false }) {}

def charRange (a b : Char) : Text :=
  (List.range (b.toNat + 1 - a.toNat)).map fun i => Char.ofNat (a.toNat + i)

def namedClass? (s : Text) : Option (Text × Text) :=
  let classes : List (Text × Text) :=
    [("[:lower:]".toList, charRange 'a' 'z'), ("[:upper:]".toList, charRange 'A' 'Z'),
     ("[:digit:]".toList, charRange '0' '9'),
     ("[:alpha:]".toList, charRange 'A' 'Z' ++ charRange 'a' 'z'),
     ("[:alnum:]".toList, charRange '0' '9' ++ charRange 'A' 'Z' ++ charRange 'a' 'z'),
     ("[:space:]".toList, ['\t', '\n', '\x0b', '\x0c', '\r', ' '])]
  (classes.find? fun (n, _) => n.isPrefixOf s)

def setChar (s : Text) : Char × Nat :=
  match s with
  | '\\' :: 'n' :: _ => ('\n', 2)
  | '\\' :: 't' :: _ => ('\t', 2)
  | '\\' :: 'r' :: _ => ('\r', 2)
  | '\\' :: c :: _ => (c, 2)
  | c :: _ => (c, 1)
  | [] => (' ', 0)

def charSet : (skip : Nat) → Text → Text
  | _, [] => []
  | k + 1, _ :: s => charSet k s
  | 0, c :: s =>
    match namedClass? (c :: s) with
    | some (n, members) => members ++ charSet (n.length - 1) s
    | none =>
      let (a, n) := setChar (c :: s)
      match (c :: s).drop n with
      | '-' :: r =>
        if r.isEmpty then a :: charSet (n - 1) s
        else
          let (b, m) := setChar r
          charRange a b ++ charSet (n + m) s
      | _ => a :: charSet (n - 1) s

/-- Runs of a character of the class shrink to one. -/
def squeeze (p : Char → Bool) : Text → Text
  | c :: d :: s => if c == d && p c then squeeze p (d :: s) else c :: squeeze p (d :: s)
  | s => s

/-- Exchanges characters of the first set for those of the second, of which the last one repeats. -/
def exchange (froms tos : Text) (c : Char) : Char :=
  match (froms.reverse.zipIdx).find? fun (d, _) => d == c with
  | some (_, i) => (tos[froms.length - 1 - i]?).getD (tos.getLast?.getD c)
  | none => c

def tr (stdin : Text) (args : List Text) : Outcome :=
  match args with
  | [['-', 'd'], a] =>
    let set := charSet 0 a
    { output := stdin.filter fun c => !set.hasChar c }
  | [['-', 's'], a] =>
    let set := charSet 0 a
    { output := squeeze (set.hasChar ·) stdin }
  | [['-', 's'], a, b] =>
    let tos := charSet 0 b
    { output := squeeze (tos.hasChar ·) (stdin.map (exchange (charSet 0 a) tos)) }
  | [a, b] => { output := stdin.map (exchange (charSet 0 a) (charSet 0 b)) }
  | _ => { errors := "tr: missing operand\n", success := false }

def textLe : Text → Text → Bool
  | [], _ => true
  | _ :: _, [] => false
  | c :: s, d :: t => if c == d then textLe s t else c.toNat < d.toNat

def sortLines (stdin : Text) (args : List Text) : Text :=
  let flags := args.flatMap fun a => a.drop 1
  let lines := stdin.lines.map fun (l : Text) => l.dropRightWhile (· == '\n')
  let number (l : Text) : Int := ((l.words.head?.getD []).readInt? 10).getD 0
  let le (a b : Text) : Bool :=
    if flags.contains 'n' then
      if number a = number b then textLe a b else number a < number b
    else textLe a b
  let sorted := lines.mergeSort le
  let sorted := if flags.contains 'u' then sorted.eraseDups else sorted
  let sorted := if flags.contains 'r' then sorted.reverse else sorted
  sorted.flatMap (· ++ ['\n'])

def perform (files : Files) (stdin : Text) (words : List Text) : Outcome :=
  match words with
  | [] => {}
  | name :: args =>
    match String.ofList name with
    | "echo" => { output := echo args }
    | "cat" => cat files stdin args
    | "tr" => tr stdin args
    | "sort" => { output := sortLines stdin args }
    | "true" => {}
    | "false" => { success := false }
    | _ => { errors := "/bin/sh: 1: ".toList ++ name ++ ": not found\n".toList, success := false }

/-! ## Running -/

structure State where
  files : Files := []
  output : Text := []
  errors : Text := []
  success : Bool := true

def send (st : State) (text : Text) : Target → State × Text
  | .output => (st, text)
  | .errors => ({ st with errors := st.errors ++ text }, [])
  | .file name append =>
    let old := if append then (st.files.lookup name).getD [] else []
    ({ st with files := (name, old ++ text) :: st.files }, [])

def runCommand (st : State) (stdin : Text) (c : Command) : State × Text :=
  let stdin :=
    match c.input with
    | some f => (st.files.lookup f).getD []
    | none => stdin
  let r := perform st.files stdin c.words
  let (st, out) := send { st with success := r.success } r.output c.output
  let (st, more) := send st r.errors c.errors
  (st, out ++ more)

def runPipeline (st : State) (p : Pipeline) : State :=
  let wanted :=
    match p.when with
    | .always => true
    | .onSuccess => st.success
    | .onFailure => !st.success
  if wanted then
    let (st, out) := p.commands.foldl (fun (st, input) c => runCommand st input c) (st, [])
    { st with output := st.output ++ out }
  else st

/-- Runs `echo` with the text, followed directly by the rest of the command line: what is written
to the output and to the error channel. -/
def run (text rest : Text) : Text × Text :=
  match piecesFrom 0 .plain (some text) rest with
  | none => ([], "/bin/sh: 1: Syntax error: Unterminated quoted string\n")
  | some pieces =>
    let st := (readPieces .always [] { words := ["echo"] } pieces).foldl runPipeline {}
    (st.output, st.errors)

end Shell
end OutlineMarkup
