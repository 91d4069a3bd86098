import OutlineMarkup.Text.Numeral

/-!
# Shortest decimals

The fewest digits that read back as the same binary floating-point number, and of the decimals
with that many digits the nearest one. All comparisons are exact, on natural numbers.
-/

namespace OutlineMarkup

namespace Decimal

/-- A positive number `mantissa · 2 ^ exponent`; `narrow` says that the next number below is
only half as far away as the next one above. -/
structure Binary where
  mantissa : Nat
  exponent : Int
  narrow : Bool

/-- Sign and magnitude of a float; no magnitude for infinities and not-a-numbers. -/
def decode (x : Float) : Bool × Option Binary :=
  let bits : Nat := x.toBits.toNat
  let negative := decide (Nat.pow 2 63 ≤ bits)
  let biased : Nat := bits / Nat.pow 2 52 % Nat.pow 2 11
  let fraction : Nat := bits % Nat.pow 2 52
  if biased = 2047 then (negative, none)
  else if biased = 0 then (negative, some ⟨fraction, -1074, false⟩)
  else (negative, some ⟨fraction + Nat.pow 2 52, (biased : Int) - 1075,
    fraction == 0 && biased != 1⟩)

structure Ratio where
  numerator : Nat
  denominator : Nat

namespace Ratio

def scale (r : Ratio) (e : Int) : Ratio :=
  if 0 ≤ e then ⟨r.numerator * Nat.pow 10 e.toNat, r.denominator⟩
  else ⟨r.numerator, r.denominator * Nat.pow 10 (-e).toNat⟩

def floor (r : Ratio) : Nat := r.numerator / r.denominator

/-- The nearest whole number; the even one of two that are equally near. -/
def round (r : Ratio) : Nat :=
  let q := r.numerator / r.denominator
  let rest := 2 * (r.numerator % r.denominator)
  if rest < r.denominator then q
  else if rest > r.denominator then q + 1
  else if q % 2 = 0 then q else q + 1

/-- The exponent `p` with `10 ^ p ≤ r < 10 ^ (p + 1)`, for a positive ratio. -/
def magnitude (r : Ratio) : Int :=
  if r.denominator ≤ r.numerator then (Nat.toDigits 10 r.floor).length - 1
  else
    let k := (Nat.toDigits 10 (r.denominator / r.numerator)).length - 1
    if r.denominator ≤ r.numerator * Nat.pow 10 k then -(k : Int) else -(k + 1 : Int)

end Ratio

namespace Binary

/-- The value of `n` quarters of the unit of the last binary place. -/
def quarters (b : Binary) (n : Nat) : Ratio :=
  let e := b.exponent - 2
  if 0 ≤ e then ⟨n * Nat.pow 2 e.toNat, 1⟩ else ⟨n, Nat.pow 2 (-e).toNat⟩

def value (b : Binary) : Ratio := b.quarters (4 * b.mantissa)

def admits (b : Binary) (c : Nat) (e : Int) : Bool :=
  let low := (b.quarters (4 * b.mantissa - if b.narrow then 1 else 2)).scale (-e)
  let high := (b.quarters (4 * b.mantissa + 2)).scale (-e)
  if b.mantissa % 2 = 0 then
    low.numerator ≤ c * low.denominator && c * high.denominator ≤ high.numerator
  else
    low.numerator < c * low.denominator && c * high.denominator < high.numerator

/-- The first grid of at most `grids` more digits on which a neighbour of the value reads back. -/
def search (b : Binary) (p : Int) : (grids digits : Nat) → Nat × Int
  | 0, n =>
    let e := p - n + 1
    ((b.value.scale (-e)).round, e)
  | grids + 1, n =>
    let e := p - n + 1
    let v := b.value.scale (-e)
    let c := v.floor
    match b.admits c e, b.admits (c + 1) e with
    | true, true => (v.round, e)
    | true, false => (c, e)
    | false, true => (c + 1, e)
    | false, false => search b p grids (n + 1)

def shortest (b : Binary) : Nat × Int := b.search b.value.magnitude 16 1

end Binary

/-- Drops final zeros of the digits, at most `fuel` of them. -/
def dropZeros : (fuel digits : Nat) → (exponent : Int) → Nat × Int
  | 0, n, e => (n, e)
  | fuel + 1, n, e => if n % 10 = 0 then dropZeros fuel (n / 10) (e + 1) else (n, e)

def ofFloat (x : Float) : Decimal :=
  match decode x with
  | (negative, none) => if x.isNaN then .notANumber else .infinite negative
  | (negative, some b) =>
    if b.mantissa = 0 then .finite negative 0 0
    else
      let (n, e) := b.shortest
      let (n, e) := dropZeros 20 n e
      .finite negative n e

/-- The nearest float; beyond the range of floats an infinity or zero. -/
def toFloat : Decimal → Float
  | .finite negative digits exponent =>
    let size := (Nat.toDigits 10 digits).length + exponent
    let x :=
      if digits = 0 || size < -400 then 0.0
      else if 400 < size then 1.0 / 0.0
      else Float.ofScientific digits (exponent < 0) exponent.natAbs
    if negative then -x else x
  | .infinite negative => if negative then -1.0 / 0.0 else 1.0 / 0.0
  | .notANumber => 0.0 / 0.0

end Decimal
end OutlineMarkup
