import OutlineMarkup.Pattern.Reader

/-!
# Replacements

The text that takes the place of a match is written with escapes: letters for control characters,
octal codes for bytes, and references to the groups of the match. An unknown escape stays as it is.
-/

namespace OutlineMarkup

namespace Pattern

inductive Piece where
  | literal (s : Text)
  | group (n : Nat)
  deriving Repr, DecidableEq

abbrev Replacement := List Piece

namespace Replacement

private def isOctalSign (c : Char) : Bool := '0' ≤ c && c ≤ '7'

/-- The number that a name in `\g<name>` stands for. A name that is not a number cannot be the
name of a group, since groups have none. -/
def groupNumber (name : Text) : Except Fault Nat :=
  match name.readInt? 10 with
  | some n => if n < 0 then .error .badPattern else .ok n.toNat
  | none => if name.isName then .error .outOfRange else .error .badPattern

def readGroupName (s : Text) : Except Fault (Nat × Nat) :=
  match s with
  | '<' :: r =>
    let name := r.takeWhile (· != '>')
    if name.length = r.length || name.isEmpty then .error .badPattern
    else do return (← groupNumber name, name.length + 2)
  | _ => .error .badPattern

def readEscape (s : Text) : Except Fault (Piece × Nat) :=
  match s with
  | [] => .error .badPattern
  | 'g' :: r => do
    let (n, length) ← readGroupName r
    return (.group n, length + 1)
  | c :: _ =>
    if c == '0' then
      let digits := (s.take 3).takeWhile isOctalSign
      .ok (.literal [octalChar digits], digits.length)
    else if c.isDigit then
      let octal := (s.take 3).takeWhile isOctalSign
      if octal.length = 3 then .ok (.literal [octalChar octal], 3)
      else
        let digits := (s.take 2).takeWhile Char.isDigit
        .ok (.group (Text.digitsValue digits), digits.length)
    else if c == 'b' then .ok (.literal ['\x08'], 1)
    else
      match controlEscape? c with
      | some d => .ok (.literal [d], 1)
      | none => .ok (.literal ['\\', c], 1)

/-- The parts of a replacement; the counter skips characters of an escape dealt with. -/
def readFrom : Nat → Text → Except Fault Replacement
  | _, [] => .ok []
  | k + 1, _ :: s => readFrom k s
  | 0, c :: s =>
    if c == '\\' then do
      let (piece, length) ← readEscape s
      return piece :: (← readFrom length s)
    else do return .literal [c] :: (← readFrom 0 s)

def read (s : Text) : Except Fault Replacement := readFrom 0 s

/-- The text of a replacement for a match: the whole match is group 0, and a group that does not
exist or has matched nothing is an error. -/
def expand (r : Replacement) (whole : Text) (caps : Captures) : Except Fault Text := do
  let parts ← r.mapM fun
    | .literal s => .ok s
    | .group 0 => .ok whole
    | .group n =>
      match caps.lookup n with
      | some s => .ok s
      | none => .error .badPattern
  return parts.flatten

end Replacement

/-- Replaces all matches from the left. An empty match right after another match is passed over.
Each step moves on by a character or a match, so `fuel` above twice the length suffices. -/
def substituteFrom (p : Pattern) (r : Replacement) : (fuel : Nat) → (afterMatch : Bool) →
    Cursor → Except Fault Text
  | 0, _, c => .ok c.right
  | fuel + 1, afterMatch, c =>
    match p.matchAt c with
    | some (c', caps) =>
      let whole := c'.since c
      if whole.isEmpty then
        if afterMatch then step fuel c
        else do
          let new ← r.expand whole caps
          return new ++ (← step fuel c)
      else do
        let new ← r.expand whole caps
        return new ++ (← substituteFrom p r fuel true c')
    | none => step fuel c
where
  /-- Copies one character and goes on behind it. -/
  step (fuel : Nat) (c : Cursor) : Except Fault Text :=
    match c.right with
    | [] => .ok []
    | d :: _ => do return d :: (← substituteFrom p r fuel false c.next)

def substitute (p : Pattern) (r : Replacement) (s : Text) : Except Fault Text :=
  substituteFrom p r (2 * s.length + 2) false (.ofText s)

end Pattern
end OutlineMarkup
