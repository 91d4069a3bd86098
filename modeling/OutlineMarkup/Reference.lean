import OutlineMarkup.Call
import OutlineMarkup.Pattern.Replacement
import OutlineMarkup.Table

/-!
# References to variables

A dollar sign and a name refer to a variable, unless a backslash stands before them. All variables
that a text refers to are replaced one after another by their values, which are written as
replacements: their escapes are carried out.
-/

namespace OutlineMarkup

/-- Variables with their values, under names that include the dollar sign. -/
abbrev Variables := Table Text

namespace Reference

def allFrom (previous : Option Char) : Text → List Text
  | [] => []
  | c :: s =>
    if c == '$' && previous != some '\\' && s.head?.any Text.isNameStart then
      ('$' :: s.takeWhile Text.isWordChar) :: allFrom (some c) s
    else allFrom (some c) s

def all (s : Text) : List Text := allFrom none s

/-- Whether a name at the start of the text ends there. -/
def standsAt (name s : Text) : Bool :=
  name.isPrefixOf s && !(s.drop name.length).head?.any Text.isWordChar

/-- Puts `new` in the place of every reference to a variable. The counter skips characters of a
reference dealt with. -/
def replaceFrom (name : Text) (new : Except Fault Text) : (skip : Nat) →
    (previous : Option Char) → Text → Except Fault Text
  | _, _, [] => .ok []
  | k + 1, _, c :: s => replaceFrom name new k (some c) s
  | 0, previous, c :: s =>
    if previous != some '\\' && standsAt name (c :: s) then do
      let value ← new
      return value ++ (← replaceFrom name new (name.length - 1) (some c) s)
    else do return c :: (← replaceFrom name new 0 (some c) s)

def replaceOne (name value code : Text) : Except Fault Text := do
  let r ← Pattern.Replacement.read value
  replaceFrom name (r.expand name []) 0 none code

def withoutIgnored (names ignored : List Text) : List Text :=
  ignored.foldl (fun names i => names.erase i) names

/-- Replaces variables one after another, each in what the ones before it have left. -/
def replaceEach (vars : Variables) (names : List Text) (code : Text) : Except Fault Text :=
  names.foldlM (fun code name =>
    match vars.get? name with
    | some value => replaceOne name value code
    | none => .error (.rejected (.undefinedVariable name))) code

/-- Replaces the references of a text, but one to each ignored name, and then computes the marked
expressions. -/
def resolve (vars : Variables) (code : Text) (ignored : List Text) : Except Fault Text := do
  let code ← replaceEach vars (withoutIgnored (all code) ignored) code
  if code.has Call.expressionMark then Call.computeExpressions code else return code

/-! ## Marked variables

In verbatim text only the variables that a block names are replaced, whether or not a backslash
stands before them.
-/

/-- Puts `new` in the place of a name wherever it is not followed by a word character. -/
def replaceMarkedFrom (name : Text) (new : Except Fault Text) : (skip : Nat) → Text →
    Except Fault Text
  | _, [] => .ok []
  | k + 1, _ :: s => replaceMarkedFrom name new k s
  | 0, c :: s =>
    if standsAt name (c :: s) then do
      let value ← new
      return value ++ (← replaceMarkedFrom name new (name.length - 1) s)
    else do return c :: (← replaceMarkedFrom name new 0 s)

def isVariableName : Text → Bool
  | '$' :: s => s.all Text.isWordChar
  | _ => false

/-- Replaces a marked variable. A marked text that is not a variable name is a pattern, of which
the first character means itself. -/
def replaceMarked (name value code : Text) : Except Fault Text := do
  if isVariableName name then
    let r ← Pattern.Replacement.read value
    replaceMarkedFrom name (r.expand name []) 0 code
  else
    let (p, _) ← Pattern.read ('\\' :: name ++ "(?![A-Za-z0-9_])".toList)
    let r ← Pattern.Replacement.read value
    p.substitute r code

end Reference
end OutlineMarkup
