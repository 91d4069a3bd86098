import OutlineMarkup.Text

/-!
# Patterns

Search patterns and how they match a text: alternatives are tried in order, repetitions take as
much as they can (or as little, if they are lazy), and a match is the first that is found this
way. Matching is defined by recursion on the pattern, with the rest of the match as a function.
-/

namespace OutlineMarkup

inductive CharClass where
  | single (c : Char)
  | range (low high : Char)
  | digit (negated : Bool)
  | blank (negated : Bool)
  | word (negated : Bool)
  deriving Repr, DecidableEq

namespace CharClass

def holds (k : CharClass) (c : Char) : Bool :=
  match k with
  | single d => c == d
  | range low high => low ≤ c && c ≤ high
  | digit negated => c.isDigit != negated
  | blank negated => Text.isBlank c != negated
  | word negated => Text.isWordChar c != negated

end CharClass

inductive Pattern where
  | empty
  | char (c : Char)
  /-- Any character but a line feed. -/
  | any
  | set (negated : Bool) (members : List CharClass)
  | start
  /-- The end, or the place before a final line feed. -/
  | finish
  | strictFinish
  | wordEdge (negated : Bool)
  | seq (a b : Pattern)
  | alt (a b : Pattern)
  | group (number : Nat) (p : Pattern)
  /-- The text that a group has matched. -/
  | again (number : Nat)
  | ahead (negated : Bool) (p : Pattern)
  | many (p : Pattern) (least : Nat) (most : Option Nat) (greedy : Bool)
  deriving Repr, DecidableEq

/-- A place in a text: what stands before it, last character first, and what follows. -/
structure Cursor where
  left : Text
  right : Text
  deriving Repr, DecidableEq

namespace Cursor

def ofText (s : Text) : Cursor := ⟨[], s⟩

def next (c : Cursor) : Cursor :=
  match c.right with
  | [] => c
  | d :: r => ⟨d :: c.left, r⟩

def advance (c : Cursor) (n : Nat) : Cursor :=
  ⟨(c.right.take n).reverse ++ c.left, c.right.drop n⟩

def since (c start : Cursor) : Text := (c.left.take (c.left.length - start.left.length)).reverse

def atWordEdge (c : Cursor) : Bool :=
  (c.left.head?.any Text.isWordChar) != (c.right.head?.any Text.isWordChar)

end Cursor

abbrev Captures := List (Nat × Text)

namespace Pattern

abbrev Ending := Cursor × Captures

abbrev Rest := Cursor → Captures → Option Ending

/-- Repeats a matcher. A repetition beyond `least` starts only if the one before it has moved on
from `last`; so at most one more than the remaining characters is needed. -/
def repeated (m : Cursor → Captures → Rest → Option Ending) (least : Nat) (most : Option Nat)
    (greedy : Bool) : (fuel done : Nat) → (last : Option Nat) → Cursor → Captures → Rest →
    Option Ending
  | 0, _, _, c, caps, k => k c caps
  | fuel + 1, done, last, c, caps, k =>
    if done < least then
      m c caps fun c' caps' => repeated m least most greedy fuel (done + 1) last c' caps' k
    else
      let here := c.left.length
      if most.all (done < ·) && last != some here then
        let more := fun (_ : Unit) => m c caps fun c' caps' =>
          repeated m least most greedy fuel (done + 1) (some here) c' caps' k
        if greedy then
          match more () with
          | some e => some e
          | none => k c caps
        else
          match k c caps with
          | some e => some e
          | none => more ()
      else k c caps

/-- Matches the pattern at the cursor and then the rest. -/
def run : Pattern → Cursor → Captures → Rest → Option Ending
  | empty, c, caps, k => k c caps
  | char d, c, caps, k =>
    match c.right with
    | e :: _ => if d = e then k c.next caps else none
    | [] => none
  | any, c, caps, k =>
    match c.right with
    | e :: _ => if e = '\n' then none else k c.next caps
    | [] => none
  | set negated members, c, caps, k =>
    match c.right with
    | e :: _ => if members.any (·.holds e) != negated then k c.next caps else none
    | [] => none
  | start, c, caps, k => if c.left.isEmpty then k c caps else none
  | finish, c, caps, k => if c.right.isEmpty || c.right = ['\n'] then k c caps else none
  | strictFinish, c, caps, k => if c.right.isEmpty then k c caps else none
  | wordEdge negated, c, caps, k => if c.atWordEdge != negated then k c caps else none
  | seq a b, c, caps, k => run a c caps fun c' caps' => run b c' caps' k
  | alt a b, c, caps, k =>
    match run a c caps k with
    | some e => some e
    | none => run b c caps k
  | group n p, c, caps, k => run p c caps fun c' caps' => k c' ((n, c'.since c) :: caps')
  | again n, c, caps, k =>
    match caps.lookup n with
    | some s => if s.isPrefixOf c.right then k (c.advance s.length) caps else none
    | none => none
  | ahead negated p, c, caps, k =>
    match run p c caps fun c' caps' => some (c', caps') with
    | some (_, caps') => if negated then none else k c caps'
    | none => if negated then k c caps else none
  | many p least most greedy, c, caps, k =>
    repeated (run p) least most greedy (least + c.right.length + 2) 0 none c caps k

def matchAt (p : Pattern) (c : Cursor) : Option Ending := p.run c [] fun c caps => some (c, caps)

def searchFrom (p : Pattern) (left : Text) : (right : Text) → Option (Cursor × Ending)
  | [] => (p.matchAt ⟨left, []⟩).map fun e => (⟨left, []⟩, e)
  | d :: r =>
    match p.matchAt ⟨left, d :: r⟩ with
    | some e => some (⟨left, d :: r⟩, e)
    | none => searchFrom p (d :: left) r

def occursIn (p : Pattern) (s : Text) : Bool := (p.searchFrom [] s).isSome

def startsText (p : Pattern) (s : Text) : Bool := (p.matchAt (.ofText s)).isSome

end Pattern
end OutlineMarkup
