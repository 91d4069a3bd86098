import OutlineMarkup.Colour.Names
import OutlineMarkup.Fault

/-!
# Colours

A colour is a number: red, green and blue as two digits of base 16 each. It is written as a name,
as six digits, or as three digits of which each counts twice.
-/

namespace OutlineMarkup

namespace Colour

def named? (name : Text) : Option Text :=
  (names.lookup (String.ofList name)).map String.toList

def isName (name : Text) : Bool := (named? name).isSome

def digits (s : Text) : Except Fault Text :=
  match named? s with
  | some d => .ok d
  | none =>
    match s with
    | [r, g, b] => .ok [r, r, g, g, b, b]
    | s => if s.length = 6 then .ok s else .error (.rejected (.notColour s))

def toNumber (s : Text) : Except Fault Int := do
  match (← digits s.toLower).readInt? 16 with
  | some n => return n
  | none => .error .badValue

def ofNumber (n : Int) : Text := Text.padLeft ((Text.hexOfInt n).drop 2) 6 '0'

def greatest : Int := 0xffffff

def clamp (n : Int) : Int := max (min n greatest) 0

end Colour
end OutlineMarkup
