import OutlineMarkup.Expression
import OutlineMarkup.Pattern.Reader

/-!
# Calls inside a line

A line may hold calls: of expressions, marked by `python.`, and of template engines, written
`engine.method(...)`. A call reaches up to the parenthesis that closes it, where parentheses may be
nested one level deep.
-/

namespace OutlineMarkup

namespace Call

def isParenthesis (c : Char) : Bool := c == '(' || c == ')'

def afterRun? (s : Text) : Option Text :=
  match s.dropWhile (!isParenthesis ·) with
  | ')' :: rest => some rest
  | _ => none

/-- The text behind the closing parenthesis, from inside an inner pair: the pair ends at the
first closing parenthesis of the line that lets the rest close too. Another pair may follow it
directly. -/
def afterInner? : Text → Option Text
  | [] => none
  | ')' :: '(' :: s => afterInner? s
  | ')' :: s =>
    match afterRun? s with
    | some rest => some rest
    | none => afterInner? s
  | c :: s => if c == '\n' then none else afterInner? s

def afterParentheses? (s : Text) : Option Text :=
  match s with
  | '(' :: s =>
    match s.dropWhile (!isParenthesis ·) with
    | ')' :: rest => some rest
    | '(' :: inner => afterInner? inner
    | _ => none
  | _ => none

def afterFirstParentheses? : Text → Option Text
  | [] => none
  | c :: s =>
    match afterParentheses? (c :: s) with
    | some rest => some rest
    | none => if c == '\n' then none else afterFirstParentheses? s

/-- All texts that start at the left edge of a word and that `after?` delimits, from the left
without overlap. The counter skips characters of a text already found. -/
def findFrom (after? : Text → Option Text) : (skip : Nat) → (previous : Option Char) →
    Text → List Text
  | _, _, [] => []
  | k + 1, _, c :: s => findFrom after? k (some c) s
  | 0, previous, c :: s =>
    if previous.any Text.isWordChar then findFrom after? 0 (some c) s
    else
      match after? (c :: s) with
      | some rest =>
        (c :: s).take (s.length + 1 - rest.length)
          :: findFrom after? (s.length - rest.length) (some c) s
      | none => findFrom after? 0 (some c) s

/-! ## Expressions -/

def expressionMark : Text := "python."

def afterExpression? (s : Text) : Option Text :=
  if expressionMark.isPrefixOf s then afterFirstParentheses? (s.drop expressionMark.length)
  else none

def expressions (line : Text) : List Text := findFrom afterExpression? 0 none line

def computeExpressions (line : Text) : Except Fault Text :=
  (expressions line).foldlM (fun line call => do
    let value ← Expression.result (call.drop expressionMark.length)
    return line.replace call value) line

/-! ## Template engines -/

def afterName? (s : Text) : Option Text :=
  if s.head?.any Text.isNameStart then some (s.dropWhile Text.isWordChar) else none

def afterEngineCall? (s : Text) : Option Text := do
  let s ← afterName? s
  match s with
  | '.' :: s => afterParentheses? (← afterName? s)
  | _ => none

def engineCalls (line : Text) : List Text := findFrom afterEngineCall? 0 none line

def standsOutside (part : Text) : (even : Bool) → (previous : Option Char) → Text → Bool
  | _, _, [] => false
  | even, previous, c :: s =>
    (even && part.isPrefixOf (c :: s)
      && (previous.any Text.isWordChar) != (part.head?.any Text.isWordChar))
    || standsOutside part (if c == '\'' then !even else even) (some c) s

/-- Pairs of single quotes, then text without them, up to the edge of a word. -/
def outsidePattern : Text := "^(?:[^\\']*([\\'])[^\\']*\\1)*[^\\']*\\b"

/-- Whether a call stands outside single quotes. Parentheses and points of the call mean
themselves; if it holds other signs of patterns, it is itself taken as a pattern. -/
def isOutsideQuotes (call line : Text) : Except Fault Bool :=
  if call.all fun c => isParenthesis c || c == '.' || !Pattern.isSpecial c then
    .ok (standsOutside call true none line)
  else do
    let source := ((call.replace "(" "\\(").replace ")" "\\)").replace "." "\\."
    let (p, _) ← Pattern.read (outsidePattern ++ source)
    return p.startsText line

end Call
end OutlineMarkup
