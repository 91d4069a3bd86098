/-!
# Text

A text is a list of characters, each of which stands for one byte: indexing, cutting and
measuring count bytes, and only the letters, digits and blanks of ASCII are known. The module
holds the cuts, splits and searches on which every reader of the language is built.
-/

namespace OutlineMarkup

/-- A list of characters below 256, one for each byte. -/
abbrev Text := List Char

instance : Coe String Text := ⟨String.toList⟩

instance : LawfulBEq Text := inferInstanceAs (LawfulBEq (List Char))

namespace Text

/-- Space, tab, line feed, carriage return, vertical tab and form feed. -/
def isBlank (c : Char) : Bool :=
  c == ' ' || c == '\t' || c == '\n' || c == '\r' || c == '\x0b' || c == '\x0c'

def isWordChar (c : Char) : Bool := c.isAlphanum || c == '_'

def isNameStart (c : Char) : Bool := c.isAlpha || c == '_'

def isQuote (c : Char) : Bool := c == '"' || c == '\''

/-! ## Trimming -/

def dropRightWhile (s : Text) (p : Char → Bool) : Text := (s.reverse.dropWhile p).reverse

def trimLeft (s : Text) : Text := s.dropWhile isBlank

def trimRight (s : Text) : Text := dropRightWhile s isBlank

def trim (s : Text) : Text := trimRight (trimLeft s)

def trimOf (s : Text) (p : Char → Bool) : Text := dropRightWhile (s.dropWhile p) p

def inner (s : Text) : Text := (s.drop 1).dropLast

/-! ## Cutting at a separator -/

def consHead (c : Char) : List Text → List Text
  | [] => [[c]]
  | p :: ps => (c :: p) :: ps

def pieces (p : Char → Bool) : Text → List Text
  | [] => [[]]
  | c :: s => if p c then [] :: pieces p s else consHead c (pieces p s)

def splitAtChar (s : Text) (c : Char) : List Text := pieces (· == c) s

def words (s : Text) : List Text := (pieces isBlank s).filter (!·.isEmpty)

/-- The text after each line feed starts a new line; a line keeps its line feed. -/
def lines : Text → List Text
  | [] => []
  | c :: s => if c = '\n' then [c] :: lines s else consHead c (lines s)

/-- Text before and after the first occurrence of the separator. -/
def cut? : (s sep : Text) → Option (Text × Text)
  | [], sep => if sep.isEmpty then some ([], []) else none
  | c :: s, sep =>
    if sep.isPrefixOf (c :: s) then some ([], (c :: s).drop sep.length)
    else (cut? s sep).map fun (a, b) => (c :: a, b)

def cutLast? : (s sep : Text) → Option (Text × Text)
  | [], sep => if sep.isEmpty then some ([], []) else none
  | c :: s, sep =>
    match cutLast? s sep with
    | some (a, b) => some (c :: a, b)
    | none => if sep.isPrefixOf (c :: s) then some ([], (c :: s).drop sep.length) else none

def has (s part : Text) : Bool := (cut? s part).isSome

def hasChar (s : Text) (c : Char) : Bool := s.any (· == c)

def before (s sep : Text) : Text := ((cut? s sep).map (·.1)).getD s

def find? (s part : Text) : Option Nat := (cut? s part).map (·.1.length)

/-- The pieces between the occurrences of `sep`; the counter skips the rest of an occurrence. -/
def splitFrom (sep : Text) : Nat → Text → List Text
  | _, [] => [[]]
  | k + 1, _ :: s => splitFrom sep k s
  | 0, c :: s =>
    if sep.isPrefixOf (c :: s) then [] :: splitFrom sep (sep.length - 1) s
    else consHead c (splitFrom sep 0 s)

def split (s sep : Text) : List Text := splitFrom sep 0 s

def occurrences (s part : Text) : Nat := (split s part).length - 1

def join (sep : Text) (parts : List Text) : Text := List.intercalate sep parts

def replace (s old new : Text) : Text := join new (split s old)

/-! ## Positions counted from either end -/

/-- A position counted from the left, or from the right if negative, kept within the text. -/
def clampIndex (length : Nat) (i : Int) : Nat :=
  if i < 0 then (i + length).toNat else min i.toNat length

def slice (s : Text) (start stop : Int) : Text :=
  let a := clampIndex s.length start
  let b := clampIndex s.length stop
  (s.take b).drop a

/-! ## Letter case and width -/

def toLower (s : Text) : Text := s.map Char.toLower

def toUpper (s : Text) : Text := s.map Char.toUpper

def padLeft (s : Text) (width : Nat) (c : Char) : Text :=
  List.replicate (width - s.length) c ++ s

def padRight (s : Text) (width : Nat) (c : Char) : Text :=
  s ++ List.replicate (width - s.length) c

def times (s : Text) (n : Nat) : Text := (List.replicate n s).flatten

/-! ## Names -/

def isName : Text → Bool
  | [] => false
  | c :: s => isNameStart c && s.all isWordChar

def isNameLine (s : Text) : Bool :=
  isName s || (s.getLast? == some '\n' && isName s.dropLast)

def isAlphanumeric (s : Text) : Bool := !s.isEmpty && s.all Char.isAlphanum

end Text
end OutlineMarkup
