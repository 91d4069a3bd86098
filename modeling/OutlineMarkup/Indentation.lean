import OutlineMarkup.Fault

/-!
# Indentation

The first indented line of a text sets the unit of indentation; the depth of a line is how often
the unit fits into its leading blanks. A line may be at most one level deeper than the one before.
-/

namespace OutlineMarkup

/-- The level of the latest line, the unit once it is known, and whether no line has been placed
yet. -/
structure Indentation where
  level : Int := 0
  unit : Option Text := none
  fresh : Bool := true
  deriving Repr, DecidableEq

namespace Indentation

def leading (line : Text) : Text := line.takeWhile Text.isBlank

def depth (t : Indentation) (line : Text) : Except Fault (Nat × Indentation) :=
  match line with
  | [] => .error .outOfRange
  | c :: _ =>
    if c == '\t' || c == ' ' then
      match t.unit with
      | none => .ok (1, { t with unit := some (leading line) })
      | some u => .ok ((leading line).length / u.length, t)
    else .ok (0, t)

def blanks (t : Indentation) (level : Int) : Except Fault Text :=
  if level = 0 then .ok []
  else
    match t.unit with
    | none => .error .wrongType
    | some u => .ok (u.times level.toNat)

/-- How many entries are closed before a line at the given depth is entered: none if nothing has
been placed yet, else one for the line before and one for each level that the line falls back. -/
def closings (t : Indentation) (depth : Nat) : Except Fault Nat :=
  let rise : Int := depth - t.level
  if rise < 1 && !t.fresh then .ok (1 - rise).toNat
  else if rise > 1 then .error (.rejected .indentation)
  else .ok 0

def place (t : Indentation) (depth : Nat) : Indentation :=
  { t with level := depth, fresh := false }

end Indentation

universe u

/-- Indentation with the entries of the lines that are open, innermost first. -/
structure Nesting (α : Type u) where
  indentation : Indentation := {}
  entries : List α := []

namespace Nesting
variable {α : Type u}

/-- Enters a line: closes what its depth closes and puts its entry on top. The nesting is given
back also if the line cannot be entered. -/
def enter (n : Nesting α) (line : Text) (entry : α) : Except Fault Unit × Nesting α :=
  match n.indentation.depth line with
  | .error f => (.error f, n)
  | .ok (depth, t) =>
    match t.closings depth with
    | .error f => (.error f, { n with indentation := t })
    | .ok k =>
      if k ≤ n.entries.length then
        (.ok (), ⟨t.place depth, entry :: n.entries.drop k⟩)
      else (.error .outOfRange, ⟨t, []⟩)

end Nesting
end OutlineMarkup
