import OutlineMarkup.Session.Methods
import OutlineMarkup.Session.Verbatim
import OutlineMarkup.Text.Quoted

/-!
# Source files

A source file is read line by line, where a backslash at the end of a line joins it to the next
one. A fault in a line is reported with the place of the line. After the last line everything that
is still open is closed. The handling of a single line is an argument.
-/

namespace OutlineMarkup

namespace Source

/-- Lines with their numbers, `n` lines having been read before; `buffer` holds the lines that
wait for the next one. A line that waits for a missing one is dropped. -/
def joinFrom (n : Nat) (buffer : Text) : List Text → List (Nat × Text)
  | [] => []
  | line :: rest =>
    let continued : Text := if buffer.isEmpty then line else ' ' :: line.trimLeft
    if line.trimRight.getLast? == some '\\' then
      joinFrom (n + 1) (buffer ++ continued.trimRight.dropLast) rest
    else (n + 1, buffer ++ continued) :: joinFrom (n + 1) [] rest

/-- The lines of a text, joined where a backslash says so, each with the number of its last
part. -/
def lines (text : Text) : List (Nat × Text) := joinFrom 0 [] text.lines

end Source

namespace Compile

def endMark : Text := "!!!_E_O_F_!!!\n"

def openFile (path : Text) : Compile Text := do
  let s ← get
  match Library.read? s.files s.place path, s.place with
  | some text, _ => return text
  | none, .project directory =>
    set { s with missing := s.missing ++ [Text.join "/" (Library.resolve directory path)] }
    throw .missingFile
  | none, .library => throw .missingFile

def placeOfError (path : Text) (n : Nat) : Text :=
  "Error in ".toList ++ path ++ ": line ".toList ++ Text.ofNat n ++ ": ".toList

/-- Handles a line. A rejected line is reported and ends the compilation; any other fault is
reported and passed on. -/
def guardLine (handle : Text → Compile Unit) (path : Text) (n : Nat) (line : Text) :
    Compile Unit :=
  tryCatch (handle line) fun f => do
    match f.message? with
    | some message =>
      report (placeOfError path n ++ message)
      report line.quoted
      throw .stopped
    | none =>
      report (placeOfError path n ++ '\'' :: line.trim
        ++ "' caused the following uncaught exception:".toList)
      report line.quoted
      throw f

/-- Ends all loops; ending one may start others. -/
def unrollAll (handle : Text → Compile Unit) : (fuel : Nat) → Compile Unit
  | 0 => throw .tooDeep
  | n + 1 => do
    if (← get).loops.isEmpty then return
    unrollLoop handle
    unrollAll handle n

def closeAll (handle : Text → Compile Unit) : Compile Unit := do
  if (← get).block.isSome then discard (verbatimLine handle endMark)
  if (← get).isDefining then discard (methodLine handle endMark)
  unrollAll handle (← get).depthBound
  Action.times closeLast (← get).elements.length

def compileFile (handle : Text → Compile Unit) (path : Text) : Compile Unit := do
  let text ← openFile path
  (Source.lines text).forM fun (n, line) => guardLine handle path n line
  closeAll handle

/-! ## Imports -/

def inLibrary (x : Compile Unit) : Compile Unit := do
  let place := (← get).place
  modify fun s => { s with place := .library }
  tryCatch x fun f => do
    modify fun s => { s with place }
    throw f
  modify fun s => { s with place }

def modulePath (name : Text) : Text := name.replace "." "/" ++ ".pyml".toList

def compileModule (handle : Text → Compile Unit) (name : Text) : Compile Unit := do
  modify fun s => { s with imported := s.imported ++ [name] }
  compileFile handle (modulePath name)

/-- Compiles a module, unless it has been imported before. A module that is not among the files is
taken from the library. -/
def importModule (handle : Text → Compile Unit) (name : Text) : Compile Unit := do
  if (← get).imported.contains name then return
  tryCatch (compileModule handle name) fun
    | .missingFile =>
      inLibrary <| tryCatch (compileModule handle name) fun
        | .missingFile => throw (.rejected (.missingModule name))
        | f => throw f
    | f => throw f

def importLine (handle : Text → Compile Unit) (line : Text) : Compile Unit :=
  match line.words with
  | [first, name] =>
    if first == "import" then importModule handle name
    else throw (.rejected (.importForm line.trim))
  | _ => throw (.rejected (.importForm line.trim))

end Compile
end OutlineMarkup
