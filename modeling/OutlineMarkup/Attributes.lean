import OutlineMarkup.Fault

/-!
# Attribute lists

Definitions and calls are written as a name with attributes in parentheses. Commas separate
attributes, except inside quotes and brackets; `.name` is short for a class, and a number needs no
quotes.
-/

namespace OutlineMarkup

namespace Attributes

/-- An attribute in full: `.x` is the class `x`, and a number is put in quotes. -/
def expand (source : Text) : Except Fault Text :=
  match source.trim with
  | [] => .error .outOfRange
  | c :: s =>
    let a : Text := c :: s
    if c == '.' then .ok ("class=\"".toList ++ s ++ ['"'])
    else
      match a.splitAtChar '=' with
      | name :: value :: _ =>
        if value.isNumber then .ok (name.trim ++ "=\"".toList ++ value.trim ++ ['"']) else .ok a
      | _ => .ok a

/-- Text inside the outermost parentheses of the first line that has both. -/
def inParentheses? : Text → Option Text
  | [] => none
  | c :: s =>
    if c == '(' then
      match Text.cutLast? (s.takeWhile (· != '\n')) ")" with
      | some (inside, _) => some inside
      | none => inParentheses? s
    else inParentheses? s

/-- What an attribute that is being collected waits for. -/
structure Open where
  quote : Option Char := none
  bracket : Bool := false
  deriving Repr, DecidableEq

namespace Open

def isClosed (o : Open) : Bool := o.quote.isNone && !o.bracket

/-- Whether a piece ends the quoted text. -/
def endsQuote (quote : Char) (piece : Text) : Bool :=
  match piece.reverse with
  | [c] => c == quote
  | c :: d :: _ => c == quote && d != '\\'
  | [] => false

/-- What is waited for after one more piece, without the blanks around it. -/
def after (o : Open) (piece : Text) : Except Fault Open :=
  match o.quote with
  | some q => .ok (if endsQuote q piece then { o with quote := none } else o)
  | none =>
    match piece.head?, piece.getLast? with
    | some first, some last =>
      let quote :=
        if piece.count '"' % 2 = 1 then some '"'
        else if piece.count '\'' % 2 = 1 then some '\''
        else none
      let bracket := if last == ']' then false else if first == '[' then true else o.bracket
      .ok ⟨quote, bracket⟩
    | _, _ => .error .outOfRange

end Open

/-- Joins pieces between commas until quotes and brackets are closed. What is still open at the
end is dropped. -/
def collect (o : Open) (buffer : Text) : List Text → Except Fault (List Text)
  | [] => .ok []
  | raw :: rest => do
    let piece := raw.trim
    let buffer := if o.isClosed then piece else buffer ++ ',' :: raw
    let o ← o.after piece
    let more ← collect o buffer rest
    return if o.isClosed then buffer.trim :: more else more

/-- Whether the name of an attribute is quoted: a quote, text without quotes, the same quote and
an equals sign. -/
def hasQuotedName (source : Text) : Bool :=
  match source with
  | [] => false
  | q :: s =>
    let name := s.takeWhile (!Text.isQuote ·)
    Text.isQuote q && !name.isEmpty &&
      match s.dropWhile (!Text.isQuote ·) with
      | r :: s => r == q && (Text.trimLeft s).head? == some '='
      | [] => false

/-- Drops the first `n` occurrences of a character. -/
def dropFirst (c : Char) : (n : Nat) → Text → Text
  | 0, s => s
  | _ + 1, [] => []
  | n + 1, d :: s => if d == c then dropFirst c n s else d :: dropFirst c (n + 1) s

def unquoteName (source : Text) : Text :=
  match source with
  | [] => []
  | q :: _ => if hasQuotedName source then dropFirst q 2 source else source

def read (tag : Text) : Except Fault (List Text) :=
  match inParentheses? tag with
  | none => .error .outOfRange
  | some [] => .ok []
  | some inside => do
    let collected ← collect {} [] (inside.splitAtChar ',')
    collected.mapM fun a => do return unquoteName (← expand a)

end Attributes

structure Definition where
  name : Text
  attributes : List Text
  deriving Repr, DecidableEq

namespace Definition

/-- Without parentheses, the name is the whole text without its colons. -/
def read (source : Text) : Except Fault Definition :=
  let tag := source.trim
  if tag.hasChar '(' then do
    return ⟨(tag.before "(").trimRight, ← Attributes.read tag⟩
  else .ok ⟨tag.replace ":" [], []⟩

def tags (d : Definition) : Text × Text :=
  let attributes := Text.join " " d.attributes
  let opening : Text :=
    if attributes.isEmpty then '<' :: d.name ++ ">\n".toList
    else '<' :: d.name ++ ' ' :: attributes ++ ">\n".toList
  (opening, "</".toList ++ d.name ++ ">\n".toList)

end Definition
end OutlineMarkup
