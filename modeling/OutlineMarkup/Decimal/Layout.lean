import OutlineMarkup.Decimal.Shortest

/-!
# Written decimals

How a floating-point number is written. Numbers from `10 ^ -4` up to `10 ^ 16` are positional and
keep at least one place after the point; all others have an exponent of two digits or more.
-/

namespace OutlineMarkup

namespace Decimal

def writtenExponent (e : Int) : Text :=
  'e' :: (if e < 0 then '-' else '+') :: Text.padLeft (Text.ofNat e.natAbs) 2 '0'

def positional (digits : Text) (point : Int) : Text :=
  if point ≤ 0 then "0.".toList ++ List.replicate (-point).toNat '0' ++ digits
  else if digits.length ≤ point then
    digits ++ List.replicate (point.toNat - digits.length) '0' ++ ".0".toList
  else digits.take point.toNat ++ '.' :: digits.drop point.toNat

def scientific (digits : Text) (e : Int) : Text :=
  match digits with
  | [] => []
  | [d] => d :: writtenExponent e
  | d :: ds => d :: '.' :: ds ++ writtenExponent e

def written : Decimal → Text
  | .finite negative n e =>
    let digits := Text.ofNat n
    let point := digits.length + e
    let body :=
      if n = 0 then "0.0".toList
      else if -3 ≤ point && point ≤ 16 then positional digits point
      else scientific digits (point - 1)
    if negative then '-' :: body else body
  | .infinite negative => if negative then "-inf" else "inf"
  | .notANumber => "nan"

def fixed (places : Nat) (r : Ratio) : Text :=
  let n := (r.scale places).round
  let digits := Text.padLeft (Text.ofNat n) (places + 1) '0'
  let whole := digits.take (digits.length - places)
  if places = 0 then whole else whole ++ '.' :: digits.drop (digits.length - places)

/-- The digits of a positive ratio rounded to `count` of them, and the exponent of the first. -/
def significant (count : Nat) (r : Ratio) : Text × Int :=
  let p := r.magnitude
  let n := (r.scale (count - 1 - p)).round
  let digits := Text.ofNat n
  if count < digits.length then (digits.take count, p + 1) else (digits, p)

end Decimal
end OutlineMarkup
