import OutlineMarkup.Text

/-!
# Tables

Names with values, in order of first arrival. A name occurs at most once: a later value takes
the place of the earlier one.
-/

namespace OutlineMarkup

universe u

abbrev Table (α : Type u) := List (Text × α)

namespace Table
variable {α : Type u}

def get? : Table α → Text → Option α
  | [], _ => none
  | (k, a) :: t, name => if k = name then some a else get? t name

def set : Table α → Text → α → Table α
  | [], name, a => [(name, a)]
  | (k, b) :: t, name, a => if k = name then (k, a) :: t else (k, b) :: set t name a

def has (t : Table α) (name : Text) : Bool := (get? t name).isSome

def names (t : Table α) : List Text := t.map (·.1)

@[simp] theorem get?_set_self (t : Table α) (name : Text) (a : α) :
    (t.set name a).get? name = some a := by
  induction t with
  | nil => simp [set, get?]
  | cons p t ih =>
    obtain ⟨k, b⟩ := p
    by_cases h : k = name <;> simp [set, get?, h, ih]

theorem get?_set_ne (t : Table α) {name other : Text} (h : other ≠ name) (a : α) :
    (t.set name a).get? other = t.get? other := by
  induction t with
  | nil => simp [set, get?, h.symm]
  | cons p t ih =>
    obtain ⟨k, b⟩ := p
    by_cases hk : k = name
    · subst hk; simp [set, get?, h.symm]
    · simp [set, get?, hk, ih]

end Table
end OutlineMarkup
