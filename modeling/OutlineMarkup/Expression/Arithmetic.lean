import OutlineMarkup.Expression.Format

/-!
# Operators

Division of whole numbers goes to the floor, the remainder has the sign of the divisor, a result
that leaves the word is long, and a whole number meeting a float becomes one. Texts and lists can be joined and repeated, and a text
before `%` is a format template.
-/

namespace OutlineMarkup

namespace Expression

inductive BinaryOp where
  | add | sub | mul | div | floorDiv | mod | pow
  | bitAnd | bitOr | bitXor | shiftLeft | shiftRight
  deriving Repr, DecidableEq

inductive UnaryOp where
  | minus | plus | invert
  deriving Repr, DecidableEq

inductive CompareOp where
  | eq | ne | lt | le | gt | ge | isIn | notIn
  deriving Repr, DecidableEq

/-! ## Floats -/

def scaledFloat (negative : Bool) (n : Nat) (e : Int) : Float :=
  let x := (Float.ofNat n).scaleB e
  if negative then -x else x

/-- The remainder with the sign of the dividend, exactly. -/
def floatRemainder (x y : Float) : Float :=
  match Decimal.decode x, Decimal.decode y with
  | (negative, some a), (_, some b) =>
    let e := min a.exponent b.exponent
    let m := a.mantissa * Nat.pow 2 (a.exponent - e).toNat
    let n := b.mantissa * Nat.pow 2 (b.exponent - e).toNat
    scaledFloat negative (m % n) e
  | (_, some _), (_, none) => if y.isNaN then y else x
  | _, _ => 0.0 / 0.0

def floatMod (x y : Float) : Float :=
  let m := floatRemainder x y
  if m != 0.0 then (if (y < 0.0) != (m < 0.0) then m + y else m)
  else if y < 0.0 then -0.0 else 0.0

def floatFloorDiv (x y : Float) : Float :=
  let m := floatRemainder x y
  let q := (x - m) / y
  let q := if m != 0.0 && (y < 0.0) != (m < 0.0) then q - 1.0 else q
  if q != 0.0 then
    let f := q.floor
    if q - f > 0.5 then f + 1.0 else f
  else q * q * x / y

def floatPow (x y : Float) : Except Fault Float :=
  if x == 0.0 && y < 0.0 then .error .zeroDivision
  else if x < 0.0 && y.isFinite && y.floor != y then .error .badValue
  else
    let r := Float.pow x y
    if r.isInf && x.isFinite && y.isFinite then .error .overflow else .ok r

def BinaryOp.onFloats (op : BinaryOp) (x y : Float) : Except Fault Value :=
  match op with
  | .add => .ok (.float (x + y))
  | .sub => .ok (.float (x - y))
  | .mul => .ok (.float (x * y))
  | .div => if y == 0.0 then .error .zeroDivision else .ok (.float (x / y))
  | .floorDiv => if y == 0.0 then .error .zeroDivision else .ok (.float (floatFloorDiv x y))
  | .mod => if y == 0.0 then .error .zeroDivision else .ok (.float (floatMod x y))
  | .pow => do return .float (← floatPow x y)
  | _ => .error .wrongType

/-! ## Whole numbers -/

/-- Bitwise operations on two's complement words wide enough for both numbers. -/
def bitwise (f : (w : Nat) → BitVec w → BitVec w → BitVec w) (m n : Int) : Int :=
  let w := max m.natAbs.log2 n.natAbs.log2 + 2
  (f w (BitVec.ofInt w m) (BitVec.ofInt w n)).toInt

def BinaryOp.onInts (op : BinaryOp) (number : Int → Value) (m n : Int) : Except Fault Value :=
  match op with
  | .add => .ok (number (m + n))
  | .sub => .ok (number (m - n))
  | .mul => .ok (number (m * n))
  | .div | .floorDiv => if n = 0 then .error .zeroDivision else .ok (number (Int.fdiv m n))
  | .mod => if n = 0 then .error .zeroDivision else .ok (number (Int.fmod m n))
  | .pow =>
    if 0 ≤ n then .ok (number (Int.pow m n.toNat))
    else do return .float (← floatPow (Float.ofInt m) (Float.ofInt n))
  | .bitAnd => .ok (number (bitwise (fun _ => (· &&& ·)) m n))
  | .bitOr => .ok (number (bitwise (fun _ => (· ||| ·)) m n))
  | .bitXor => .ok (number (bitwise (fun _ => (· ^^^ ·)) m n))
  | .shiftLeft => if n < 0 then .error .badValue else .ok (number (m * Int.pow 2 n.toNat))
  | .shiftRight => if n < 0 then .error .badValue else .ok (number (Int.fdiv m (Int.pow 2 n.toNat)))

/-! ## All values -/

def repeated {α : Type} (xs : List α) (n : Int) : List α := (List.replicate n.toNat xs).flatten

def formatArguments : Value → List Value
  | .tuple items => items
  | v => [v]

def BinaryOp.onSequences (op : BinaryOp) (v w : Value) : Except Fault Value :=
  match op, v, w with
  | .add, .text s, .text t => .ok (.text (s ++ t))
  | .add, .list xs, .list ys => .ok (.list (xs ++ ys))
  | .add, .tuple xs, .tuple ys => .ok (.tuple (xs ++ ys))
  | .mod, .text s, w => do return .text (← format s (formatArguments w))
  | .mul, v, w =>
    match v, w.int?, v.int?, w with
    | .text s, some n, _, _ => .ok (.text (repeated s n))
    | .list xs, some n, _, _ => .ok (.list (repeated xs n))
    | .tuple xs, some n, _, _ => .ok (.tuple (repeated xs n))
    | _, _, some n, .text s => .ok (.text (repeated s n))
    | _, _, some n, .list xs => .ok (.list (repeated xs n))
    | _, _, some n, .tuple xs => .ok (.tuple (repeated xs n))
    | _, _, _, _ => .error .wrongType
  | _, _, _ => .error .wrongType

def BinaryOp.apply (op : BinaryOp) (v w : Value) : Except Fault Value :=
  match v.int?, w.int? with
  | some m, some n => op.onInts (v.like w) m n
  | _, _ =>
    match v.float?, w.float? with
    | some x, some y => op.onFloats x y
    | _, _ => op.onSequences v w

def UnaryOp.apply (op : UnaryOp) (v : Value) : Except Fault Value :=
  match v.int?, v, op with
  | some n, _, .minus => .ok (v.like v (-n))
  | some n, _, .plus => .ok (v.like v n)
  | some n, _, .invert => .ok (v.like v (-n - 1))
  | _, .float x, .minus => .ok (.float (-x))
  | _, .float x, .plus => .ok (.float x)
  | _, _, _ => .error .wrongType

/-- Whether two values are equal; a not-a-number is equal to nothing. -/
def sameValue (v w : Value) : Bool :=
  match v, w with
  | .float x, .float y => x == y
  | .none, .none => true
  | v, w => v.rank == w.rank && v.rank != 5 && v.compareTo w == .eq

def CompareOp.apply (op : CompareOp) (v w : Value) : Except Fault Bool :=
  match op with
  | .eq => .ok (sameValue v w)
  | .ne => .ok (!sameValue v w)
  | .lt => .ok (v.compareTo w == .lt)
  | .le => .ok (v.compareTo w != .gt)
  | .gt => .ok (v.compareTo w == .gt)
  | .ge => .ok (v.compareTo w != .lt)
  | .isIn => member
  | .notIn => member.map not
where
  member : Except Fault Bool :=
    match v, w with
    | .text s, .text t => .ok (t.has s)
    | _, .text _ => .error .wrongType
    | v, w =>
      match w.items? with
      | some items => .ok (items.any (sameValue v))
      | none => .error .wrongType

/-! ## Positions and parts -/

def position? (length : Nat) (i : Int) : Option Nat :=
  let i := if i < 0 then i + length else i
  if 0 ≤ i && i < length then some i.toNat else none

/-- The positions of a part: from `start` before `stop` in steps. -/
def stride (start stop step : Int) : (fuel : Nat) → List Nat
  | 0 => []
  | fuel + 1 =>
    if (0 < step && start < stop) || (step < 0 && stop < start) then
      start.toNat :: stride (start + step) stop step fuel
    else []

/-- The positions that a part with the given bounds selects from a sequence. -/
def partPositions (length : Nat) (start stop : Option Int) (step : Int) : List Nat :=
  let clamp (low high : Int) (i : Int) : Int :=
    let i := if i < 0 then i + length else i
    max low (min high i)
  if 0 < step then
    stride (clamp 0 length (start.getD 0)) (clamp 0 length (stop.getD length)) step (length + 1)
  else
    let first : Int := match start with
      | some i => clamp (-1) (length - 1) i
      | none => length - 1
    let last : Int := match stop with
      | some i => clamp (-1) (length - 1) i
      | none => -1
    stride first last step (length + 1)

def bound? : Value → Except Fault (Option Int)
  | .none => .ok none
  | v =>
    match v.int? with
    | some n => .ok (some n)
    | none => .error .wrongType

def partOf {α : Type} (xs : List α) (start stop : Option Int) (step : Int) : List α :=
  (partPositions xs.length start stop step).filterMap fun i => xs[i]?

def Value.part (v start stop step : Value) : Except Fault Value := do
  let a ← bound? start
  let b ← bound? stop
  let k := (← bound? step).getD 1
  match v with
  | .text s => if k = 0 then .error .badValue else return .text (partOf s a b k)
  | .list xs => if k = 0 then .error .badValue else return .list (partOf xs a b k)
  | .tuple xs => if k = 0 then .error .badValue else return .tuple (partOf xs a b k)
  | _ => .error .wrongType

def Value.item (v i : Value) : Except Fault Value :=
  match v.items?, i.int? with
  | some items, some n =>
    match position? items.length n with
    | some k =>
      match items[k]? with
      | some w => .ok w
      | .none => .error .outOfRange
    | .none => .error .outOfRange
  | _, _ => .error .wrongType

end Expression
end OutlineMarkup
