import OutlineMarkup.Text

/-!
# Numerals

Whole numbers in positional notation, read and written, and the decimal literals that may carry
a point and an exponent.
-/

namespace OutlineMarkup

/-- Whether a number fits a signed word of 64 bits. -/
def fitsWord (n : Int) : Bool := -9223372036854775808 ≤ n && n < 9223372036854775808

namespace Text

def digitValue? (c : Char) : Option Nat :=
  if c.isDigit then some (c.toNat - '0'.toNat)
  else if c.isLower then some (c.toNat - 'a'.toNat + 10)
  else if c.isUpper then some (c.toNat - 'A'.toNat + 10)
  else none

/-- Reads digits after the number `acc`, refusing any other character. -/
def digitsFrom? (base : Nat) (acc : Nat) : Text → Option Nat
  | [] => some acc
  | c :: s =>
    match digitValue? c with
    | some d => if d < base then digitsFrom? base (acc * base + d) s else none
    | none => none

def readNat? (base : Nat) (s : Text) : Option Nat :=
  if s.isEmpty then none else digitsFrom? base 0 s

/-- The number of a sequence of decimal digits. -/
def digitsValue (s : Text) : Nat := s.foldl (fun n c => n * 10 + (c.toNat - '0'.toNat)) 0

def takeSign : Text → Bool × Text
  | '-' :: s => (true, s)
  | '+' :: s => (false, s)
  | s => (false, s)

/-- Drops the mark `0x`, `0o` or `0b` if it fits the base. -/
def dropBaseMark (base : Nat) : Text → Text
  | '0' :: c :: s =>
    let c' := c.toLower
    if (base = 16 && c' == 'x') || (base = 8 && c' == 'o') || (base = 2 && c' == 'b') then s
    else '0' :: c :: s
  | s => s

/-- A whole number with blanks around it, a sign and the mark of the base allowed. -/
def readInt? (base : Nat) (s : Text) : Option Int :=
  let (negative, digits) := takeSign (trim s)
  (readNat? base (dropBaseMark base digits)).map fun n => if negative then -(n : Int) else n

def ofNat (n : Nat) : Text := Nat.toDigits 10 n

def ofInt : Int → Text
  | .ofNat n => ofNat n
  | .negSucc n => '-' :: ofNat (n + 1)

/-- A long number bears the mark `L`. -/
def ofLong (n : Int) : Text := ofInt n ++ ['L']

/-- Base 16 in lower case with its mark: `0xff`, `-0x1`. -/
def hexOfInt : Int → Text
  | .ofNat n => '0' :: 'x' :: Nat.toDigits 16 n
  | .negSucc n => '-' :: '0' :: 'x' :: Nat.toDigits 16 (n + 1)

end Text

/-- What a decimal literal denotes: `digits · 10 ^ exponent` with a sign, or no finite number. -/
inductive Decimal where
  | finite (negative : Bool) (digits : Nat) (exponent : Int)
  | infinite (negative : Bool)
  | notANumber
  deriving Repr, DecidableEq

namespace Decimal

/-- The exponent part: nothing, or `e`, a sign and at least one digit. -/
def readExponent? : Text → Option Int
  | [] => some 0
  | c :: s =>
    if c == 'e' || c == 'E' then
      let (negative, digits) := Text.takeSign s
      if !digits.isEmpty && digits.all Char.isDigit then
        let n := Text.digitsValue digits
        some (if negative then -(n : Int) else n)
      else none
    else none

/-- Digits with an optional point, at least one digit in all, then the exponent part. -/
def readUnsigned? (negative : Bool) (s : Text) : Option Decimal :=
  let whole := s.takeWhile Char.isDigit
  let rest := s.dropWhile Char.isDigit
  let (fraction, rest) :=
    match rest with
    | '.' :: r => (r.takeWhile Char.isDigit, r.dropWhile Char.isDigit)
    | r => ([], r)
  if whole.isEmpty && fraction.isEmpty then none
  else (readExponent? rest).map fun e =>
    .finite negative (Text.digitsValue (whole ++ fraction)) (e - fraction.length)

/-- A decimal literal with blanks around it allowed, `inf`, `infinity` and `nan` included. -/
def read? (s : Text) : Option Decimal :=
  let (negative, s) := Text.takeSign (Text.trim s)
  let low := Text.toLower s
  if low == "inf" || low == "infinity" then some (.infinite negative)
  else if low == "nan" then some .notANumber
  else readUnsigned? negative s

end Decimal

namespace Text

/-- Whether the text reads as a decimal literal. -/
def isNumber (s : Text) : Bool := (Decimal.read? s).isSome

end Text
end OutlineMarkup
