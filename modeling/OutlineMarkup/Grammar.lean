import OutlineMarkup.Indentation
import OutlineMarkup.Table

/-!
# Grammars

A grammar lists the tags of a markup language with the attributes each of them allows. Indentation
passes the attributes of a line on to the lines below it; a line named `.` only passes attributes
on; `*` allows every attribute. A tag that is listed again gains the attributes of the new line.
-/

namespace OutlineMarkup

inductive Closing where
  /-- In short form if nothing is nested in it. -/
  | normal
  /-- Always by an end tag. -/
  | separate
  /-- Never. -/
  | single
  deriving Repr, DecidableEq

/-- What a grammar says about a tag; no list of attributes means that all are allowed. -/
structure TagRule where
  closing : Closing
  attributes : Option (List Text)
  deriving Repr, DecidableEq

abbrev TagTable := Table TagRule

namespace TagTable

def key? (t : TagTable) (tag : Text) : Option Text :=
  if Table.has t tag then some tag else if Table.has t "*" then some "*" else none

def rule? (t : TagTable) (tag : Text) : Option TagRule :=
  match Table.get? t tag with
  | some r => some r
  | none => Table.get? t "*"

end TagTable

/-- The first of the items that are the same. -/
def distinctBy {α : Type} (same : α → α → Bool) : List α → List α
  | [] => []
  | a :: as => a :: (distinctBy same as).filter fun b => !same a b

def distinct (texts : List Text) : List Text := distinctBy (· == ·) texts

namespace Grammar

/-- The words of a line, cut at commas; commas around a word do not count. -/
def entries (line : Text) : List Text :=
  line.trim.words.flatMap fun w => (w.trimOf (· == ',')).splitAtChar ','

/-- Name and way of closing of a tag written in angle brackets with an optional mark. -/
def readTag (s : Text) : Except Fault (Text × Closing) :=
  match s.getLast? with
  | none => .error .outOfRange
  | some '-' => .ok (s.slice 1 (-2), .single)
  | some '+' => .ok (s.slice 1 (-2), .separate)
  | some _ => .ok (s.slice 1 (-1), .normal)

/-- A line that defines a tag; no name for a line that only passes attributes on. -/
abbrev Definition := Option (Text × TagRule)

/-- Reads a line in the nesting of attribute lists. -/
def readLine (n : Nesting (List Text)) (line : Text) :
    Except Fault Definition × Nesting (List Text) :=
  match entries line with
  | [] => (.error .outOfRange, n)
  | tag :: attributes =>
    match readTag tag with
    | .error f => (.error f, n)
    | .ok (name, closing) =>
      match n.enter line attributes with
      | (.error f, n) => (.error f, n)
      | (.ok (), n) =>
        if name = ['.'] then (.ok none, n)
        else
          let all := distinct n.entries.reverse.flatten
          let allowed := if all.contains ['*'] then none else some all
          (.ok (some (name, ⟨closing, allowed⟩)), n)

/-- Adds a definition: a tag that is listed keeps its way of closing and gains attributes, which
is possible only between lists. -/
def define (t : TagTable) : Definition → Except Fault TagTable
  | none => .ok t
  | some (name, rule) =>
    match t.get? name with
    | none => .ok (t.set name rule)
    | some old =>
      match old.attributes, rule.attributes with
      | none, _ => .error .unknownAttribute
      | some _, none => .error .wrongType
      | some as, some bs => .ok (t.set name { old with attributes := some (as ++ bs) })

def withoutComment (line : Text) : Text := (line.before "#").trimRight

/-- Reads lines in turn; `pending` holds lines that a backslash continues. -/
def readLines (pending : Text) (n : Nesting (List Text)) (t : TagTable) :
    List Text → Except Fault TagTable
  | [] => .ok t
  | raw :: rest =>
    let line := withoutComment raw
    if line.trim.isEmpty then readLines pending n t rest
    else
      let line := if pending.isEmpty then line else ' ' :: line.trimLeft
      if line.getLast? == some '\\' then readLines (pending ++ line.dropLast) n t rest
      else
        match readLine n (pending ++ line) with
        | (.error f, _) => .error f
        | (.ok d, n) =>
          match define t d with
          | .error f => .error f
          | .ok t => readLines [] n t rest

def read (source : Text) : Except Fault TagTable := readLines [] {} [] source.lines

end Grammar
end OutlineMarkup
