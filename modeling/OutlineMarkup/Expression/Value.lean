import OutlineMarkup.Decimal.Layout
import OutlineMarkup.Fault
import OutlineMarkup.Text.Quoted

/-!
# Values of expressions

The expression language is dynamically typed: whole numbers, floats, texts, lists, tuples, truth
values, `None`, and the functions and methods that can be called. Each value has a written form,
which is what a document receives.
-/

namespace OutlineMarkup

namespace Expression

inductive TextMethod where
  | capitalize | center | count | endswith | expandtabs | find | index | isalnum | isalpha
  | isdigit | islower | isspace | istitle | isupper | join | ljust | lower | lstrip | partition
  | replace | rfind | rindex | rjust | rpartition | rsplit | rstrip | split | splitlines
  | startswith | strip | swapcase | title | upper | zfill
  deriving Repr, DecidableEq

inductive Builtin where
  | abs | chr | hex | len | max | min | ord | pow | sorted | sum
  | mathFabs | mathPow | mathSqrt
  deriving Repr, DecidableEq

inductive Conversion where
  | bool | float | int | text
  deriving Repr, DecidableEq

inductive Value where
  | none
  | bool (b : Bool)
  | int (n : Int)
  /-- A whole number that has left the word, or is marked as long; so is what is computed from it. -/
  | long (n : Int)
  | float (x : Float)
  | text (s : Text)
  | list (items : List Value)
  | tuple (items : List Value)
  | function (f : Builtin)
  | conversion (c : Conversion)
  /-- A method taken from the type of texts, which still wants its text. -/
  | method (m : TextMethod)
  /-- A method taken from a text. -/
  | bound (receiver : Text) (m : TextMethod)
  /-- The collection of mathematical functions. -/
  | math
  /-- A named object that takes part in no operation. -/
  | named (name : Text)

namespace TextMethod

def table : List (String × TextMethod) :=
  [("capitalize", capitalize), ("center", center), ("count", count), ("endswith", endswith),
   ("expandtabs", expandtabs), ("find", find), ("index", index), ("isalnum", isalnum),
   ("isalpha", isalpha), ("isdigit", isdigit), ("islower", islower), ("isspace", isspace),
   ("istitle", istitle), ("isupper", isupper), ("join", join), ("ljust", ljust),
   ("lower", lower), ("lstrip", lstrip), ("partition", partition), ("replace", replace),
   ("rfind", rfind), ("rindex", rindex), ("rjust", rjust), ("rpartition", rpartition),
   ("rsplit", rsplit), ("rstrip", rstrip), ("split", split), ("splitlines", splitlines),
   ("startswith", startswith), ("strip", strip), ("swapcase", swapcase), ("title", title),
   ("upper", upper), ("zfill", zfill)]

def ofName? (name : Text) : Option TextMethod := table.lookup (String.ofList name)

def name (m : TextMethod) : Text := ((table.find? (·.2 == m)).map (·.1)).getD ""

end TextMethod

namespace Builtin

def table : List (String × Builtin) :=
  [("abs", abs), ("chr", chr), ("hex", hex), ("len", len), ("max", max), ("min", min),
   ("ord", ord), ("pow", pow), ("sorted", sorted), ("sum", sum)]

def mathTable : List (String × Builtin) :=
  [("fabs", mathFabs), ("pow", mathPow), ("sqrt", mathSqrt)]

def name (b : Builtin) : Text := (((table ++ mathTable).find? (·.2 == b)).map (·.1)).getD ""

end Builtin

namespace Conversion

def name : Conversion → Text
  | bool => "bool"
  | float => "float"
  | int => "int"
  | text => "str"

end Conversion

namespace Value

mutual

/-- The written form. -/
def written : Value → Text
  | .none => "None"
  | .bool b => if b then "True" else "False"
  | .int n => Text.ofInt n
  | .long n => Text.ofLong n
  | .float x => (Decimal.ofFloat x).written
  | .text s => s.quoted
  | .list items => '[' :: Text.join ", " (writtenAll items) ++ [']']
  | .tuple items =>
    match writtenAll items with
    | [one] => '(' :: one ++ ",)".toList
    | many => '(' :: Text.join ", " many ++ [')']
  | .function f => "<built-in function ".toList ++ f.name ++ ['>']
  | .conversion c => "<type '".toList ++ c.name ++ "'>".toList
  | .method m => "<method '".toList ++ m.name ++ "' of 'str' objects>".toList
  | .bound _ m => "<built-in method ".toList ++ m.name ++ " of str object>".toList
  | .math => "<module 'math' (built-in)>"
  | .named n => "<built-in function ".toList ++ n ++ ['>']

def writtenAll : List Value → List Text
  | [] => []
  | v :: vs => v.written :: writtenAll vs

end

def plain : Value → Text
  | .text s => s
  | .long n => Text.ofInt n
  | v => v.written

/-- Zero, empty and absent values count as false. -/
def isTrue : Value → Bool
  | .none => false
  | .bool b => b
  | .int n | .long n => n != 0
  | .float x => x != 0.0
  | .text s => !s.isEmpty
  | .list items => !items.isEmpty
  | .tuple items => !items.isEmpty
  | _ => true

def int? : Value → Option Int
  | .int n | .long n => some n
  | .bool b => some (if b then 1 else 0)
  | _ => .none

def float? : Value → Option Float
  | .int n | .long n => some (Float.ofInt n)
  | .bool b => some (if b then 1.0 else 0.0)
  | .float x => some x
  | _ => .none

def isLong : Value → Bool
  | .long _ => true
  | _ => false

def whole (n : Int) : Value := if fitsWord n then .int n else .long n

/-- A number computed from two values. -/
def like (v w : Value) (n : Int) : Value := if v.isLong || w.isLong then .long n else .whole n

/-- What a value yields when it is run through: items, or the characters of a text. -/
def items? : Value → Option (List Value)
  | .list items => some items
  | .tuple items => some items
  | .text s => some (s.map fun c => .text [c])
  | _ => .none

/-! ## Order -/

/-- Rank of the type among values of different types. -/
def rank : Value → Nat
  | .none => 0
  | .bool _ | .int _ | .long _ | .float _ => 1
  | .list _ => 2
  | .text _ => 3
  | .tuple _ => 4
  | _ => 5

def compareFloat (x y : Float) : Ordering :=
  if x < y then .lt else if y < x then .gt else .eq

def compareText : Text → Text → Ordering
  | [], [] => .eq
  | [], _ :: _ => .lt
  | _ :: _, [] => .gt
  | c :: s, d :: t => (compare c.toNat d.toNat).then (compareText s t)

mutual

/-- Numbers by value, texts and sequences by their first difference, else by type. -/
def compareTo : Value → Value → Ordering
  | .text s, w =>
    match w with
    | .text t => compareText s t
    | w => compare 3 w.rank
  | .list xs, w =>
    match w with
    | .list ys => compareAll xs ys
    | w => compare 2 w.rank
  | .tuple xs, w =>
    match w with
    | .tuple ys => compareAll xs ys
    | w => compare 4 w.rank
  | v, w =>
    match v.int?, w.int?, v.float?, w.float? with
    | some a, some b, _, _ => compare a b
    | _, _, some x, some y => compareFloat x y
    | _, _, _, _ => compare v.rank w.rank

def compareAll : List Value → List Value → Ordering
  | [], [] => .eq
  | [], _ :: _ => .lt
  | _ :: _, [] => .gt
  | x :: xs, y :: ys => (compareTo x y).then (compareAll xs ys)

end

end Value
end Expression
end OutlineMarkup
