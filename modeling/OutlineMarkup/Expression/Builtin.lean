import OutlineMarkup.Expression.TextMethod

/-!
# Functions and names

The functions that an expression may call, the conversions between types, and the meaning of
names.
-/

namespace OutlineMarkup

namespace Expression

def wantItems (v : Value) : Except Fault (List Value) :=
  match v.items? with
  | some items => .ok items
  | none => .error .wrongType

def wantFloat (v : Value) : Except Fault Float :=
  match v.float? with
  | some x => .ok x
  | none => .error .wrongType

/-- The first of the values that no other one precedes. -/
def extreme (better : Ordering) : List Value → Except Fault Value
  | [] => .error .badValue
  | v :: vs => .ok (vs.foldl (fun best w => if w.compareTo best == better then w else best) v)

def contenders : List Value → Except Fault (List Value)
  | [] => .error .wrongType
  | [v] => wantItems v
  | vs => .ok vs

/-- Sum of the values from `start`; texts are refused. -/
def total (start : Value) (items : List Value) : Except Fault Value :=
  match start with
  | .text _ => .error .wrongType
  | start => items.foldlM (fun a v => BinaryOp.add.apply a v) start

/-- The power `m ^ e` modulo `n`, with the sign of `n`. -/
def powMod (number : Int → Value) (m e n : Int) : Except Fault Value :=
  if e < 0 then .error .wrongType
  else if n = 0 then .error .badValue
  else .ok (number (Int.fmod (Int.pow m e.toNat) n))

namespace Builtin

def apply (f : Builtin) (args : List Value) : Except Fault Value :=
  match f, args with
  | len, [v] =>
    match v.items? with
    | some items => .ok (.int items.length)
    | none => .error .wrongType
  | abs, [v] =>
    match v.int?, v with
    | some n, _ => .ok (v.like v n.natAbs)
    | _, .float x => .ok (.float x.abs)
    | _, _ => .error .wrongType
  | chr, [v] => do
    let n ← wantInt v
    if 0 ≤ n && n < 256 then return .text [Char.ofNat n.toNat] else .error .badValue
  | ord, [v] =>
    match v with
    | .text [c] => .ok (.int c.toNat)
    | _ => .error .wrongType
  | hex, [v] => do return .text (Text.hexOfInt (← wantInt v) ++ if v.isLong then ['L'] else [])
  | max, args => do extreme .gt (← contenders args)
  | min, args => do extreme .lt (← contenders args)
  | pow, [v, w] => BinaryOp.pow.apply v w
  | pow, [v, w, n] => do
    powMod (if n.isLong then .long else v.like w) (← wantInt v) (← wantInt w) (← wantInt n)
  | sorted, [v] => do
    return .list ((← wantItems v).mergeSort fun a b => a.compareTo b != .gt)
  | sum, [v] => do total (.int 0) (← wantItems v)
  | sum, [v, start] => do total start (← wantItems v)
  | mathFabs, [v] => do return .float (← wantFloat v).abs
  | mathSqrt, [v] => do
    let x ← wantFloat v
    if x < 0.0 then .error .badValue else return .float x.sqrt
  | mathPow, [v, w] => do
    let x ← wantFloat v
    let y ← wantFloat w
    let r := Float.pow x y
    if x.isFinite && y.isFinite then
      if r.isNaN || (x == 0.0 && y < 0.0) then .error .badValue
      else if r.isInf then .error .overflow
      else return .float r
    else return .float r
  | _, _ => .error .wrongType

end Builtin

namespace Conversion

def shownBase (s : Text) : Nat :=
  match (Text.takeSign s.trim).2 with
  | '0' :: c :: _ =>
    let c := c.toLower
    if c == 'x' then 16 else if c == 'b' then 2 else 8
  | _ => 10

def readInt (s : Text) (base : Nat) : Except Fault Value :=
  match s.readInt? base with
  | some n => .ok (.whole n)
  | none => .error .badValue

def apply (c : Conversion) (args : List Value) : Except Fault Value :=
  match c, args with
  | bool, [] => .ok (.bool false)
  | bool, [v] => .ok (.bool v.isTrue)
  | text, [] => .ok (.text [])
  | text, [v] => .ok (.text v.plain)
  | int, [] => .ok (.int 0)
  | int, [.text s] => readInt s 10
  | int, [v] => do return .whole (← Directive.wholeNumber v)
  | int, [.text s, b] => do
    let base ← wantInt b
    if base = 0 then readInt s (shownBase s)
    else if 2 ≤ base && base ≤ 36 then readInt s base.toNat
    else .error .badValue
  | float, [] => .ok (.float 0.0)
  | float, [.text s] =>
    match Decimal.read? s with
    | some d => .ok (.float d.toFloat)
    | none => .error .badValue
  | float, [v] => do return .float (← wantFloat v)
  | _, _ => .error .wrongType

end Conversion

/-- Names that denote something of which nothing is described here but that it has a name: calls of
it and operations on it are refused, whatever they would do elsewhere. -/
def inertNames : List String :=
  ["all", "any", "apply", "basestring", "bin", "buffer", "bytearray", "bytes", "callable",
   "classmethod", "cmp", "coerce", "compile", "complex", "copyright", "credits", "delattr",
   "dict", "dir", "divmod", "enumerate", "eval", "execfile", "exit", "file", "filter", "format",
   "frozenset", "getattr", "globals", "hasattr", "hash", "help", "id", "input", "intern",
   "isinstance", "issubclass", "iter", "license", "list", "locals", "long", "map", "memoryview",
   "next", "object", "oct", "open", "os", "property", "quit", "range", "raw_input", "re",
   "reduce", "reload", "repr", "reversed", "round", "set", "setattr", "slice", "staticmethod",
   "string", "super", "sys", "tuple", "type", "unichr", "unicode", "vars", "xrange", "zip"]

def nameMeaning? (name : Text) : Option Value :=
  let n := String.ofList name
  if n == "None" then some .none
  else if n == "True" then some (.bool true)
  else if n == "False" then some (.bool false)
  else if n == "str" then some (.conversion .text)
  else if n == "int" then some (.conversion .int)
  else if n == "float" then some (.conversion .float)
  else if n == "bool" then some (.conversion .bool)
  else if n == "math" then some .math
  else
    match Builtin.table.lookup n with
    | some f => some (.function f)
    | none => if inertNames.contains n then some (.named name) else none

def Value.member (v : Value) (name : Text) : Except Fault Value :=
  match v with
  | .text s =>
    match TextMethod.ofName? name with
    | some m => .ok (.bound s m)
    | .none => .error .unknownAttribute
  | .conversion .text =>
    match TextMethod.ofName? name with
    | some m => .ok (.method m)
    | .none => .error .unknownAttribute
  | .math =>
    match Builtin.mathTable.lookup (String.ofList name) with
    | some f => .ok (.function f)
    | .none => .error .unknownAttribute
  | _ => .error .unknownAttribute

/-- Calls a value. Keywords are known to no function of the language. -/
def Value.call (v : Value) (args : List Value) (keywords : List Text) : Except Fault Value :=
  if !keywords.isEmpty then .error .wrongType
  else
    match v with
    | .function f => f.apply args
    | .conversion c => c.apply args
    | .bound s m => m.apply s args
    | .method m =>
      match args with
      | .text s :: rest => m.apply s rest
      | _ => .error .wrongType
    | _ => .error .wrongType

end Expression
end OutlineMarkup
