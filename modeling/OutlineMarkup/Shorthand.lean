import OutlineMarkup.Fault

/-!
# Array shorthand

`[1:5]` stands for `[1, 2, 3, 4, 5]`, and `[8:1:-2]` for `[8, 6, 4, 2]`: the first and the last
number, both included, and a step. Of several steps the last one counts.
-/

namespace OutlineMarkup

structure Shorthand where
  first : Int
  bound : Int
  step : Int
  deriving Repr, DecidableEq

namespace Shorthand

def number? (s : Text) : Option (Int × Text) :=
  let (negative, r) : Bool × Text :=
    match s with
    | '-' :: r => (true, r)
    | r => (false, r)
  let digits := r.takeWhile Char.isDigit
  if digits.isEmpty then none
  else
    let n : Int := Text.digitsValue digits
    some (if negative then -n else n, r.dropWhile Char.isDigit)

/-- Steps up to the closing bracket; `step` is the one that counts so far. -/
def steps? : (fuel : Nat) → (step : Int) → Text → Option (Int × Text)
  | 0, _, _ => none
  | fuel + 1, step, s =>
    match s with
    | ']' :: r => some (step, r)
    | ':' :: r =>
      match number? r with
      | some (n, r) => steps? fuel n r
      | none => none
    | _ => none

/-- A shorthand at the start of the text, with what follows it. -/
def read? (s : Text) : Option (Shorthand × Text) :=
  match s with
  | '[' :: r => do
    let (first, r) ← number? r
    match r with
    | ':' :: r => do
      let (bound, r) ← number? r
      let (step, r) ← steps? (r.length + 1) 1 r
      return (⟨first, bound, step⟩, r)
    | _ => none
  | _ => none

def count (a : Shorthand) : Nat :=
  if 0 < a.step then
    if a.first ≤ a.bound then ((a.bound - a.first) / a.step).toNat + 1 else 0
  else if a.bound ≤ a.first then ((a.first - a.bound) / (-a.step)).toNat + 1 else 0

def numbers (a : Shorthand) : List Int :=
  (List.range a.count).map fun (i : Nat) => a.first + i * a.step

/-- The numbers fit the word, and so does the one behind the bound. -/
def isShort (a : Shorthand) : Bool :=
  fitsWord a.first && fitsWord (if 0 < a.step then a.bound + 1 else a.bound - 1) && fitsWord a.step

/-- All numbers are long if the shorthand has a long one; there cannot be more of them than a word
can count. -/
def written (a : Shorthand) : Except Fault Text :=
  if a.step = 0 then .error .badValue
  else if 9223372036854775808 ≤ a.count then .error .overflow
  else
    let number := if a.isShort then Text.ofInt else Text.ofLong
    .ok ('[' :: Text.join ", " (a.numbers.map number) ++ [']'])

/-- Writes every shorthand in full; the counter skips characters of one dealt with. -/
def expandFrom : Nat → Text → Except Fault Text
  | _, [] => .ok []
  | k + 1, _ :: s => expandFrom k s
  | 0, c :: s =>
    match read? (c :: s) with
    | some (a, rest) => do
      let full ← a.written
      return full ++ (← expandFrom (s.length - rest.length) s)
    | none => do return c :: (← expandFrom 0 s)

def expand (s : Text) : Except Fault Text := expandFrom 0 s

end Shorthand
end OutlineMarkup
