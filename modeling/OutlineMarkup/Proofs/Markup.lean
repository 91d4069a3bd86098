import Mathlib.Data.List.Chain
import OutlineMarkup.Attributes
import OutlineMarkup.Grammar

/-!
# Plain markup

The lines of a document that stand for markup and nothing else: elements with quoted attributes,
and quoted texts, each at a depth. The module gives their written form, what a grammar allows of
them, and when a sequence of depths is an outline.
-/

namespace OutlineMarkup

/-! ## Characters and names -/

/-- A letter followed by letters and digits. -/
def isTagName : Text → Bool
  | [] => false
  | c :: s => c.isAlpha && s.all Char.isAlphanum

/-- A letter followed by letters, digits and underscores. -/
def isCallName : Text → Bool
  | [] => false
  | c :: s => c.isAlpha && s.all Text.isWordChar

/-- What values and texts are made of: letters, digits, spaces, `_` and `-`. -/
def isPlainChar (c : Char) : Bool := c.isAlphanum || c == ' ' || c == '_' || c == '-'

/-- What values and texts with references to variables are made of. -/
def isValueChar (c : Char) : Bool := isPlainChar c || c == '$'

/-- At least one letter, digit or underscore and nothing else. -/
def isBareWord (s : Text) : Bool := !s.isEmpty && s.all Text.isWordChar

/-- Holds none of the words that declare verbatim blocks and template engines. -/
def isUnreserved (s : Text) : Bool :=
  !s.has "verbatim" && !s.has "code_block" && !s.has "TemplateEngine"

/-- Spaces and tabs, at least one. -/
def isUnit (u : Text) : Bool := !u.isEmpty && u.all fun c => c == ' ' || c == '\t'

/-! ## Markup -/

/-- What a line stands for; values and texts are of type `α`. -/
inductive Markup (α : Type) where
  /-- A name with an optional list of attributes in parentheses and an optional colon. -/
  | element (name : Text) (attributes : Option (List (Text × α))) (colon : Bool)
  /-- A text in double quotes. -/
  | text (content : α)
  deriving Repr, DecidableEq

namespace Markup
variable {α β : Type}

def map (f : α → β) : Markup α → Markup β
  | element name attributes colon =>
    element name (attributes.map (·.map fun (a, v) => (a, f v))) colon
  | text content => text (f content)

/-- The written form `name="value"`. -/
def attributeText (a : Text × Text) : Text := a.1 ++ "=\"" ++ a.2 ++ ['"']

def colonText (colon : Bool) : Text := if colon then [':'] else []

def written : Markup Text → Text
  | element name none colon => name ++ colonText colon
  | element name (some attributes) colon =>
    name ++ '(' :: Text.join ", " (attributes.map attributeText) ++ ')' :: colonText colon
  | text content => '"' :: content ++ ['"']

def name? : Markup α → Option Text
  | element name _ _ => some name
  | text _ => none

/-- Names are made of letters and digits, values and texts are of a kind. -/
def isMadeOf (kind : α → Bool) : Markup α → Bool
  | element name attributes _ =>
    name.isAlphanumeric && (attributes.getD []).all fun (a, v) => a.isAlphanumeric && kind v
  | text content => kind content

/-- Values and texts refer to no variables. -/
def isPlain (m : Markup Text) : Bool := m.isMadeOf (·.all isPlainChar)

/-- Values and texts may also refer to variables. -/
def isWritable (m : Markup Text) : Bool := m.isMadeOf (·.all isValueChar)

/-- The grammar lists the tag, under its own name or `*`, and allows all the attributes. -/
def isAllowed (tags : TagTable) : Markup Text → Bool
  | element name attributes _ =>
    match tags.rule? name with
    | none => false
    | some rule =>
      match rule.attributes with
      | none => true
      | some allowed => (attributes.getD []).all fun (a, _) => allowed.contains a
  | text _ => true

/-- The name and attributes that an element is read as. -/
def definition (name : Text) (attributes : Option (List (Text × Text))) : Definition :=
  ⟨name, (attributes.getD []).map attributeText⟩

end Markup

/-! ## Outlines -/

/-- The first depth is zero, and no depth exceeds the one before by more than one. -/
def WellIndented (depths : List Nat) : Prop :=
  depths.IsChain (fun d e => e ≤ d + 1) ∧ ∀ d ∈ depths.head?, d = 0

instance (depths : List Nat) : Decidable (WellIndented depths) :=
  inferInstanceAs (Decidable (_ ∧ _))

/-- Markup at its depths, line by line. -/
abbrev Outline := List (Nat × Markup Text)

namespace Outline

def depths (o : Outline) : List Nat := o.map (·.1)

def lines (unit : Text) (o : Outline) : List Text :=
  o.map fun (depth, m) => unit.times depth ++ m.written

/-- Every line is plain markup and holds no reserved word. -/
def isPlain (o : Outline) : Bool := o.all fun (_, m) => m.isPlain && isUnreserved m.written

def isAllowed (tags : TagTable) (o : Outline) : Bool := o.all fun (_, m) => m.isAllowed tags

end Outline

/-- The text of a file with the given lines; the last line feed may be missing. -/
def sourceText (lines : List Text) (terminated : Bool) : Text :=
  if terminated then lines.flatMap (· ++ ['\n']) else Text.join ['\n'] lines

end OutlineMarkup
