import OutlineMarkup.Colour
import OutlineMarkup.Expression

/-!
# Assignments and arithmetic

`$a += 3` is short for `$a := $a + (3)`. Arithmetic inside methods works on numbers, texts and
colours: a colour counts as its number, and the result is a colour again.
-/

namespace OutlineMarkup

namespace Assignment

def sign : Text := ":="

def operators : List (Text × Char) :=
  [("+=".toList, '+'), ("-=".toList, '-'), ("*=".toList, '*'), ("/=".toList, '/')]

def isCompound (line : Text) : Bool := operators.any fun (op, _) => line.has op

def target (line : Text) : Text := (operators.foldl (fun s (op, _) => s.before op) line).trim

/-- The assignment in full, with the parenthesis closed that it opens. -/
def expand (line : Text) : Text :=
  let t := target line
  let full := operators.foldl (fun s (op, c) =>
    s.replace op (":= ".toList ++ t ++ [' ', c, ' ', '('])) line
  if full.count '(' > full.count ')' then full.trimRight ++ ")\n".toList else full

end Assignment

namespace Arithmetic

/-- The written value of an expression. Text that is no expression is rejected. -/
def compute (operation : Text) : Except Fault Text :=
  match Expression.result operation with
  | .error .malformed => .error (.rejected (.notArithmetic operation.trim))
  | r => r

def isOperator (c : Char) : Bool := c == '-' || c == '+' || c == '*' || c == '/'

def evenAfter (quote : Char) (s : Text) : Bool := s.count quote % 2 == 0

def hasOperator (quote : Char) : Text → Bool
  | [] => false
  | c :: s => (isOperator c && evenAfter quote s) || hasOperator quote s

/-- Words of letters in double quotes, with an even number of double quotes after them. The
counter skips characters of a word already found. -/
def quotedWords : (skip : Nat) → Text → List Text
  | _, [] => []
  | k + 1, _ :: s => quotedWords k s
  | 0, c :: s =>
    let word := s.takeWhile Char.isAlpha
    match s.dropWhile Char.isAlpha with
    | '"' :: rest =>
      if c == '"' && !word.isEmpty && evenAfter '"' rest then
        word :: quotedWords (word.length + 1) s
      else quotedWords 0 s
    | _ => quotedWords 0 s

def isHexDigit (c : Char) : Bool := (Text.digitValue? c).any (· < 16)

def hexCodes : Text → List Text
  | [] => []
  | c :: s =>
    let code := s.takeWhile isHexDigit
    if c == '#' && !code.isEmpty && evenAfter '"' s then code :: hexCodes s else hexCodes s

/-- Colours by their numbers: whether there is one, and the text with the numbers. -/
def withColourNumbers (part : Text) : Except Fault (Bool × Text) := do
  let named := (quotedWords 0 part).filter Colour.isName
  let codes := (hexCodes part).filter fun h => h.length == 3 || h.length == 6
  let part' ← named.foldlM (fun (p : Text) w => do
    return p.replace ('"' :: w ++ ['"']) (Text.ofInt (← Colour.toNumber w))) part
  let part' ← codes.foldlM (fun (p : Text) h => do
    return p.replace ('#' :: h) (Text.ofInt (← Colour.toNumber h))) part'
  return (!named.isEmpty || !codes.isEmpty, part')

/-- A name up to an equals sign, which is not the first character, and the value after it. Both
stand on one line, which a line feed may end. -/
def nameAndValue? (part : Text) : Option (Text × Text) :=
  match part with
  | [] => none
  | c :: s =>
    if Text.isQuote c then none
    else
      match Text.cut? s "=" with
      | none => none
      | some (name, value) =>
        let value' : Text := if value.getLast? == some '\n' then value.dropLast else value
        if name.hasChar '\n' || value'.hasChar '\n' then none else some (c :: name, value')

/-- Computes a part of a line if an operator stands outside quotes in it; of a part with an equals
sign, the value. -/
def computePart (part : Text) : Except Fault Text :=
  if hasOperator '"' part && hasOperator '\'' part then do
    let (coloured, part) ← withColourNumbers part
    let computed ←
      match nameAndValue? part with
      | some (name, value) => do pure (name ++ '=' :: (← compute value))
      | none => compute part
    if coloured then
      match computed.readInt? 10 with
      | some n => return '#' :: Colour.ofNumber (Colour.clamp n)
      | none => .error .badValue
    else return computed
  else .ok part

end Arithmetic
end OutlineMarkup
