import OutlineMarkup.Expression.Value

/-!
# Format templates

A template is text with directives: `%`, flags, a width, a precision and a conversion letter.
Each directive but `%%` takes the next argument. It is an error if arguments are missing or left
over, or if a directive is cut short or has an unknown letter.
-/

namespace OutlineMarkup

namespace Expression

/-- A directive with its `*` parts filled in; `length` counts its characters after the `%`. -/
structure Directive where
  flags : Text
  width : Nat
  leftAligned : Bool
  precision : Option Nat
  conversion : Char
  length : Nat

namespace Directive

def isFlag (c : Char) : Bool := c == '-' || c == '+' || c == ' ' || c == '#' || c == '0'

def nextArgument : List Value → Except Fault (Value × List Value)
  | [] => .error .wrongType
  | v :: vs => .ok (v, vs)

def readCount (s : Text) (args : List Value) : Except Fault (Option Int × Text × List Value) :=
  match s with
  | '*' :: s => do
    let (v, args) ← nextArgument args
    match v.int? with
    | some n => return (some n, s, args)
    | none => .error .wrongType
  | s =>
    let digits := s.takeWhile Char.isDigit
    let n : Option Int := if digits.isEmpty then none else some (Text.digitsValue digits)
    .ok (n, s.dropWhile Char.isDigit, args)

def read (s : Text) (args : List Value) : Except Fault (Directive × List Value) := do
  if s.head? == some '(' then .error .wrongType
  let flags : Text := s.takeWhile isFlag
  let (width, s', args) ← readCount (s.dropWhile isFlag) args
  let (precision, s', args) ←
    match s' with
    | '.' :: r => do
      let (n, r, args) ← readCount r args
      pure (some (n.getD 0).toNat, r, args)
    | r => pure (none, r, args)
  let s' :=
    match s' with
    | c :: r => if c == 'h' || c == 'l' || c == 'L' then r else s'
    | [] => []
  match s' with
  | [] => .error .badValue
  | c :: r =>
    return (⟨flags, (width.getD 0).natAbs, flags.hasChar '-' || width.getD 0 < 0, precision, c,
      s.length - r.length⟩, args)

def pad (d : Directive) (s : Text) : Text :=
  if d.leftAligned then s.padRight d.width ' ' else s.padLeft d.width ' '

/-- A sign and a magnitude, filled up with zeros between them if the directive asks for it. -/
def padNumber (d : Directive) (negative : Bool) (body : Text) : Text :=
  let sign : Text :=
    if negative then ['-']
    else if d.flags.hasChar '+' then ['+']
    else if d.flags.hasChar ' ' then [' ']
    else []
  if d.flags.hasChar '0' && !d.leftAligned then
    sign ++ body.padLeft (d.width - sign.length) '0'
  else d.pad (sign ++ body)

/-- The whole part of a number; texts and other values are refused. -/
def wholeNumber : Value → Except Fault Int
  | .float x =>
    match Decimal.decode x with
    | (negative, some b) =>
      let n : Int := b.value.floor
      .ok (if negative then -n else n)
    | (_, none) => if x.isNaN then .error .badValue else .error .overflow
  | v =>
    match v.int? with
    | some n => .ok n
    | none => .error .wrongType

def whole (d : Directive) (n : Int) : Text :=
  let (base, mark) : Nat × Text :=
    if d.conversion == 'o' then (8, ['0'])
    else if d.conversion == 'x' then (16, ['0', 'x'])
    else if d.conversion == 'X' then (16, ['0', 'X'])
    else (10, [])
  let digits := Nat.toDigits base n.natAbs
  let digits := if d.conversion == 'X' then Text.toUpper digits else digits
  let digits := Text.padLeft digits (d.precision.getD 1) '0'
  let digits := if d.flags.hasChar '#' then mark ++ digits else digits
  d.padNumber (n < 0) digits

/-- Drops zeros at the end of a fraction, and the point if nothing is left behind it. -/
def dropFractionZeros (s : Text) : Text :=
  if s.hasChar '.' then
    Text.dropRightWhile (s.dropRightWhile (· == '0')) (· == '.')
  else s

def exponential (places : Nat) (r : Decimal.Ratio) (strip : Bool) : Text :=
  let (digits, e) :=
    if r.numerator = 0 then (List.replicate (places + 1) '0', 0)
    else Decimal.significant (places + 1) r
  let body := if places = 0 then digits else digits.take 1 ++ '.' :: digits.drop 1
  (if strip then dropFractionZeros body else body) ++ Decimal.writtenExponent e

def general (digits : Nat) (r : Decimal.Ratio) (strip : Bool) : Text :=
  let digits := max digits 1
  let e := if r.numerator = 0 then 0 else (Decimal.significant digits r).2
  if -4 ≤ e && e < digits then
    let body := Decimal.fixed (digits - 1 - e).toNat r
    if strip then dropFractionZeros body else body
  else exponential (digits - 1) r strip

def real (d : Directive) (x : Float) : Text :=
  let upper := d.conversion.isUpper
  let body : Text :=
    match Decimal.decode x with
    | (_, none) => if x.isNaN then "nan" else "inf"
    | (_, some b) =>
      let places := d.precision.getD 6
      let c := d.conversion.toLower
      if c == 'f' then Decimal.fixed places b.value
      else if c == 'e' then exponential places b.value false
      else general places b.value (!d.flags.hasChar '#')
  d.padNumber ((Decimal.decode x).1 && !x.isNaN) (if upper then body.toUpper else body)

def character : Value → Except Fault Text
  | .text [c] => .ok [c]
  | .text _ => .error .wrongType
  | v =>
    match v.int? with
    | some n => if 0 ≤ n && n < 256 then .ok [Char.ofNat n.toNat] else .error .overflow
    | none => .error .wrongType

def convert (d : Directive) (v : Value) : Except Fault Text :=
  let cutTo (s : Text) : Text := match d.precision with
    | some n => s.take n
    | none => s
  match d.conversion with
  | 's' => .ok (d.pad (cutTo v.plain))
  | 'r' => .ok (d.pad (cutTo v.written))
  | 'c' => do return d.pad (← character v)
  | 'd' | 'i' | 'u' | 'o' | 'x' | 'X' => do return d.whole (← wholeNumber v)
  | 'e' | 'E' | 'f' | 'F' | 'g' | 'G' =>
    match v.float? with
    | some x => .ok (d.real x)
    | none => .error .wrongType
  | _ => .error .badValue

end Directive

/-- Fills the directives of the rest of a template; the counter skips characters of a directive
that has been dealt with. -/
def formatFrom : Nat → Text → List Value → Except Fault Text
  | _, [], [] => .ok []
  | _, [], _ :: _ => .error .wrongType
  | k + 1, _ :: s, args => formatFrom k s args
  | 0, c :: s, args =>
    if c == '%' then do
      let (d, args) ← Directive.read s args
      if d.conversion == '%' then
        return d.pad ['%'] ++ (← formatFrom d.length s args)
      else
        let (v, args) ← Directive.nextArgument args
        let piece ← d.convert v
        return piece ++ (← formatFrom d.length s args)
    else do return c :: (← formatFrom 0 s args)

def format (template : Text) (args : List Value) : Except Fault Text := formatFrom 0 template args

end Expression
end OutlineMarkup
