import OutlineMarkup.Fault

/-!
# Indexed arrays

`[a, b, c][1]` stands for `b`. An array is read from its closing bracket backwards; quotes hide
commas and brackets, and an array may hold arrays.
-/

namespace OutlineMarkup

namespace ArrayIndex

/-- The state of reading backwards: the items found so far, the text since the last comma, how
many brackets are open, and whether the place is inside quotes. -/
structure Scan where
  items : List Text := []
  buffer : Text := []
  brackets : Int := 0
  inSingle : Bool := false
  inDouble : Bool := false

namespace Scan

def unquoted (st : Scan) : Bool := !st.inSingle && !st.inDouble

def keep (st : Scan) (c : Char) : Scan := { st with buffer := c :: st.buffer }

def closeItem (st : Scan) : Scan := { st with items := st.buffer.trim :: st.items }

/-- One character, of which `previous` is the one to its left. -/
def step (st : Scan) (c previous : Char) : Scan :=
  if c == ']' && st.unquoted then
    let st := { st with brackets := st.brackets + 1 }
    if st.brackets > 1 then st.keep c else st
  else if c == '[' && st.unquoted then
    let st := { st with brackets := st.brackets - 1 }
    if st.brackets ≥ 1 then st.keep c else st
  else if c == '"' && !st.inSingle && previous != '\\' then
    { st with inDouble := !st.inDouble }.keep c
  else if c == '\'' && !st.inDouble && previous != '\\' then
    { st with inSingle := !st.inSingle }.keep c
  else if c == ',' && st.unquoted && st.brackets == 1 then
    { st.closeItem with buffer := [] }
  else st.keep c

/-- Reads on to the left until no bracket is open: the items and where the array starts. Left of
the first character stands the last one, `around`. -/
def run (around : Char) : (reversed : Text) → Scan → List Text × Nat
  | [], st => (st.items, 0)
  | c :: rest, st =>
    let st := st.step c (rest.head?.getD around)
    if st.brackets == 0 then
      let st := if st.buffer.isEmpty then st else st.closeItem
      (st.items, rest.length)
    else run around rest st

end Scan

def lastArray (s : Text) : List Text × Nat :=
  match s.reverse with
  | [] => ([], 0)
  | c :: rest => Scan.run c (c :: rest) {}

/-- The item at an index, which counts from the end if negative. -/
def item? (items : List Text) (i : Int) : Option Text :=
  if i < 0 then (if -i ≤ items.length then items[(i + items.length).toNat]? else none)
  else items[i.toNat]?

/-- Puts the item in the place of the first indexed array; the same array with the same index
gives way everywhere. -/
def resolveFirst (line : Text) : Except Fault Text :=
  match line.cut? "][" with
  | none => .ok line
  | some (head, after) =>
    let (items, start) := lastArray (head ++ [']'])
    let index := ((after.cut? "][").map (·.1)).getD after |>.before "]"
    match index.readInt? 10 with
    | none => .error (.rejected (.notIndex index))
    | some i =>
      match item? items i with
      | none => .error (.rejected .brokenIndex)
      | some new =>
        let indexed : Text := (line.take (head.length + index.length + 3)).drop start
        .ok (line.replace indexed new)

/-- Every step shortens the line, so its length bounds their number. -/
def resolveAll : (fuel : Nat) → Text → Except Fault Text
  | 0, line => .ok line
  | fuel + 1, line =>
    if line.has "][" then
      match resolveFirst line with
      | .ok line => resolveAll fuel line
      | .error f => .error f
    else .ok line

def resolve (line : Text) : Except Fault Text := resolveAll line.length line

end ArrayIndex
end OutlineMarkup
