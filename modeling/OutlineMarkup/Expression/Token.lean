import OutlineMarkup.Expression.Value

/-!
# Tokens of expressions

Numbers, texts, names and operator signs. Blanks separate tokens, a `#` starts a comment, and an
expression is one line unless a bracket is open or a backslash ends the line.
-/

namespace OutlineMarkup

namespace Expression

inductive Token where
  | int (n : Int)
  | long (n : Int)
  | float (x : Float)
  | text (s : Text)
  | name (s : Text)
  | sign (s : Text)

/-! ## Numbers -/

def exponentPart (s : Text) : Int × Text :=
  match s with
  | c :: r =>
    if c == 'e' || c == 'E' then
      let (negative, digits) := Text.takeSign r
      let shown := digits.takeWhile Char.isDigit
      if shown.isEmpty then (0, s)
      else
        let n : Int := Text.digitsValue shown
        (if negative then -n else n, digits.dropWhile Char.isDigit)
    else (0, s)
  | [] => (0, s)

/-- A whole number, with what follows it: it is long if a mark says so. -/
def wholeToken (n : Nat) : Text → Token × Text
  | c :: s => if c == 'l' || c == 'L' then (.long n, s) else (.int n, c :: s)
  | [] => (.int n, [])

def basedNumber (base : Nat) (s : Text) : Except Fault (Token × Text) :=
  let fits (c : Char) : Bool := (Text.digitValue? c).any fun d => decide (d < base)
  match Text.readNat? base (s.takeWhile fits) with
  | some n => .ok (wholeToken n (s.dropWhile fits))
  | none => .error .malformed

/-- A number without the mark of a base: a float if it has a point or an exponent; otherwise a
leading zero makes it octal. -/
def plainNumber (s : Text) : Except Fault (Token × Text) :=
  let whole := s.takeWhile Char.isDigit
  let rest := s.dropWhile Char.isDigit
  let (point, fraction, rest) :=
    match rest with
    | '.' :: r => (true, r.takeWhile Char.isDigit, r.dropWhile Char.isDigit)
    | r => (false, [], r)
  let (e, rest') := exponentPart rest
  if point || rest'.length < rest.length then
    let n := Text.digitsValue (whole ++ fraction)
    .ok (.float (Decimal.finite false n (e - fraction.length)).toFloat, rest')
  else
    let base := if whole.head? == some '0' then 8 else 10
    match Text.readNat? base whole with
    | some n => .ok (wholeToken n rest)
    | none => .error .malformed

def number (s : Text) : Except Fault (Token × Text) :=
  match s with
  | '0' :: c :: r =>
    let c := c.toLower
    if c == 'x' then basedNumber 16 r
    else if c == 'o' then basedNumber 8 r
    else if c == 'b' then basedNumber 2 r
    else plainNumber s
  | s => plainNumber s

/-! ## Texts -/

def letterEscape? : Char → Option Char
  | '\\' => some '\\'
  | '\'' => some '\''
  | '"' => some '"'
  | 'a' => some '\x07'
  | 'b' => some '\x08'
  | 'f' => some '\x0c'
  | 'n' => some '\n'
  | 'r' => some '\r'
  | 't' => some '\t'
  | 'v' => some '\x0b'
  | _ => none

def isOctal (c : Char) : Bool := '0' ≤ c && c ≤ '7'

/-- Text with its escapes carried out; the counter skips characters of an escape dealt with.
An unknown escape stays as it is. -/
def unescapeFrom : Nat → Text → Except Fault Text
  | _, [] => .ok []
  | k + 1, _ :: s => unescapeFrom k s
  | 0, c :: s =>
    if c != '\\' then do return c :: (← unescapeFrom 0 s)
    else
      match s with
      | [] => .ok ['\\']
      | '\n' :: _ => unescapeFrom 1 s
      | 'x' :: r =>
        match (r.take 2).mapM Text.digitValue? with
        | some [a, b] =>
          if a < 16 && b < 16 then do return Char.ofNat (a * 16 + b) :: (← unescapeFrom 3 s)
          else .error .badValue
        | _ => .error .badValue
      | d :: _ =>
        match letterEscape? d with
        | some e => do return e :: (← unescapeFrom 1 s)
        | none =>
          let octal := (s.take 3).takeWhile isOctal
          if octal.isEmpty then do return '\\' :: (← unescapeFrom 0 s)
          else
            let n := (Text.digitsFrom? 8 0 octal).getD 0
            do return Char.ofNat (n % 256) :: (← unescapeFrom octal.length s)

/-- The body of a text up to its closing quotes, with what follows them. A backslash keeps the
character after it from closing the text; a line feed may stand in long texts only. -/
def textBody (quotes : Text) : Text → Option (Text × Text)
  | [] => none
  | '\\' :: c :: s => (textBody quotes s).map fun (a, b) => ('\\' :: c :: a, b)
  | c :: s =>
    if quotes.isPrefixOf (c :: s) then some ([], (c :: s).drop quotes.length)
    else if c == '\n' && quotes.length == 1 then none
    else (textBody quotes s).map fun (a, b) => (c :: a, b)

def quotedText (raw : Bool) (s : Text) : Except Fault (Token × Text) :=
  match s with
  | [] => .error .malformed
  | q :: r =>
    let (quotes, body) := if [q, q].isPrefixOf r then ([q, q, q], r.drop 2) else ([q], r)
    match textBody quotes body with
    | none => .error .malformed
    | some (content, rest) => do
      let content ← if raw then pure content else unescapeFrom 0 content
      return (.text content, rest)

/-- Letters that may stand before a text: whether they are such, and whether it is raw. -/
def textMark? (word : Text) : Option Bool :=
  let w := String.ofList word.toLower
  if w == "r" || w == "br" || w == "ur" then some true
  else if w == "b" || w == "u" then some false
  else none

/-! ## All tokens -/

def signs : List Text :=
  ["**", "//", "<<", ">>", "<=", ">=", "==", "!=", "<>", "+", "-", "*", "/", "%", "(", ")", "[",
   "]", "\x7b", "\x7d", ",", ":", ".", "<", ">", "&", "|", "^", "~", "=", ";", "@"].map
    String.toList

def nextToken (s : Text) : Except Fault (Token × Text) :=
  match s with
  | [] => .error .malformed
  | c :: r =>
    if c.isDigit || (c == '.' && (r.head?.map Char.isDigit).getD false) then number s
    else if Text.isNameStart c then
      let word := s.takeWhile Text.isWordChar
      let rest := s.dropWhile Text.isWordChar
      match (rest.head?.map Text.isQuote).getD false, textMark? word with
      | true, some raw => quotedText raw rest
      | _, _ => .ok (.name word, rest)
    else if Text.isQuote c then quotedText false s
    else
      match signs.find? (·.isPrefixOf s) with
      | some t => .ok (.sign t, s.drop t.length)
      | none => .error .malformed

def isOpening (t : Token) : Bool :=
  match t with
  | .sign [c] => c == '(' || c == '[' || c == '\x7b'
  | _ => false

def isClosing (t : Token) : Bool :=
  match t with
  | .sign [c] => c == ')' || c == ']' || c == '\x7d'
  | _ => false

def isGap (c : Char) : Bool := c == ' ' || c == '\t' || c == '\x0c'

/-- Whether a line holds nothing but gaps and a comment. -/
def isEmptyLine (s : Text) : Bool :=
  match s.dropWhile isGap with
  | [] => true
  | c :: _ => c == '\n' || c == '#'

/-- The tokens of the text: `depth` brackets are open, and `started` says that a token has been
seen. Each step takes at least one character, so `fuel` above the length is never used up. -/
def tokensFrom : (fuel depth : Nat) → (started : Bool) → Text → Except Fault (List Token)
  | 0, _, _, _ => .error .malformed
  | _ + 1, _, _, [] => .ok []
  | fuel + 1, depth, started, c :: s =>
    if isGap c then tokensFrom fuel depth started s
    else if c == '#' then tokensFrom fuel depth started (s.dropWhile (· != '\n'))
    else if c == '\\' then
      match s with
      | '\n' :: r => tokensFrom fuel depth started r
      | _ => .error .malformed
    else if c == '\n' then
      if depth > 0 || isEmptyLine s then tokensFrom fuel depth started s
      else if started || (s.head?.map isGap).getD false then .error .malformed
      else tokensFrom fuel depth started s
    else do
      let (t, rest) ← nextToken (c :: s)
      let depth := if isOpening t then depth + 1 else if isClosing t then depth - 1 else depth
      return t :: (← tokensFrom fuel depth true rest)

/-- Carriage returns end lines just as line feeds do. -/
def unifyLines : Text → Text
  | [] => []
  | '\r' :: '\n' :: s => '\n' :: unifyLines s
  | c :: s => (if c == '\r' then '\n' else c) :: unifyLines s

theorem unifyLines_eq_self {w : Text} (hw : '\r' ∉ w) : unifyLines w = w := by
  fun_induction unifyLines w with
  | case1 => rfl
  | case2 s => simp at hw
  | case3 c s _ ih =>
    rw [List.mem_cons, not_or] at hw
    rw [ih hw.2, if_neg]
    simpa using Ne.symm hw.1

def tokens (s : Text) : Except Fault (List Token) :=
  let s := (unifyLines s).dropWhile fun c => c == ' ' || c == '\t'
  tokensFrom (s.length + 1) 0 false s

end Expression
end OutlineMarkup
