import OutlineMarkup.Proofs.Comments

/-!
# Learning the unit of indentation

Lines are looked at one after another, some for their depth only, and others to be entered, which may
fail. Whatever happens, the unit is the leading blanks of the first line that starts with a space or a
tab. So the blanks printed for a level are read back as that level, and nothing is learnt from them.
-/

namespace OutlineMarkup
open List Text

universe u

namespace Indentation
variable {α : Type u}

/-- A line that is looked at for its depth, or entered above the entries that are open then. -/
inductive Look (α : Type u) where
  | find (line : Text)
  | enter (entries : List α) (line : Text) (entry : α)

namespace Look

def line : Look α → Text
  | find line => line
  | enter _ line _ => line

/-- The indentation after a look, also after one that fails. -/
def after (t : Indentation) : Look α → Indentation
  | find line =>
    match t.depth line with
    | .error _ => t
    | .ok (_, t') => t'
  | enter entries line entry => ((Nesting.mk t entries).enter line entry).2.indentation

end Look

/-- What a new indentation becomes by a sequence of looks. -/
def learn (looks : List (Look α)) : Indentation := looks.foldl Look.after {}

/-! ## What a look can change -/

theorem unit_depth {t t' : Indentation} {line : Text} {d : Nat} (h : t.depth line = .ok (d, t')) :
    t'.unit = t.unit.or (first? [line]) := by
  cases line with
  | nil => cases h
  | cons c r =>
    have hindented : isIndented (c :: r) = (c == '\t' || c == ' ') := by
      simp [isIndented]
    rw [depth] at h
    cases hc : (c == '\t' || c == ' ') with
    | false =>
      rw [hc] at h hindented
      cases h
      rw [first?_cons_of_neg hindented]
      exact Option.or_none.symm
    | true =>
      rw [hc] at h hindented
      rw [first?_cons_of_pos hindented]
      cases hunit : t.unit with
      | none =>
        rw [hunit] at h
        cases h
        rfl
      | some w =>
        rw [hunit] at h
        cases h
        exact hunit

theorem depth_error {t : Indentation} {line : Text} {f : Fault} (h : t.depth line = .error f) :
    line = [] := by
  cases line with
  | nil => rfl
  | cons c r =>
    rw [depth] at h
    split at h
    · split at h <;> cases h
    · cases h

theorem unit_enter (n : Nesting α) (line : Text) (a : α) :
    (n.enter line a).2.indentation.unit = n.indentation.unit.or (first? [line]) := by
  rw [Nesting.enter]
  rcases hdepth : n.indentation.depth line with f | ⟨d, t⟩
  · rw [depth_error hdepth]
    exact Option.or_none.symm
  have hunit := unit_depth hdepth
  cases hclosings : t.closings d with
  | error f =>
    simp only [hclosings]
    exact hunit
  | ok k =>
    simp only [hclosings]
    split <;> exact hunit

theorem unit_after (t : Indentation) (x : Look α) : (x.after t).unit = t.unit.or (first? [x.line]) := by
  cases x with
  | find line =>
    rcases hdepth : t.depth line with f | ⟨d, t'⟩
    · rw [Look.after, hdepth, Look.line, depth_error hdepth]
      exact Option.or_none.symm
    · rw [Look.after, hdepth]
      exact unit_depth hdepth
  | enter entries line entry => exact unit_enter ⟨t, entries⟩ line entry

/-! ## What a sequence of looks leaves -/

theorem first?_cons (x : Text) (xs : List Text) : first? (x :: xs) = (first? [x]).or (first? xs) := by
  cases h : isIndented x with
  | true => rw [first?_cons_of_pos h, first?_cons_of_pos h, Option.some_or]
  | false =>
    rw [first?_cons_of_neg h, first?_cons_of_neg h]
    rfl

theorem unit_foldl (looks : List (Look α)) (t : Indentation) :
    (looks.foldl Look.after t).unit = t.unit.or (first? (looks.map Look.line)) := by
  induction looks generalizing t with
  | nil => exact Option.or_none.symm
  | cons x looks ih =>
    rw [foldl_cons, ih, unit_after, map_cons, first?_cons x.line (looks.map Look.line), Option.or_assoc]

theorem unit_learn (looks : List (Look α)) : (learn looks).unit = first? (looks.map Look.line) := by
  rw [learn, unit_foldl]
  rfl

theorem blanks_eq {t : Indentation} {u : Text} {n : Nat} (h : t.unit = some u ∨ n = 0) :
    t.blanks n = .ok (u.times n) := by
  by_cases hn : n = 0
  · subst hn
    rfl
  · have hunit : t.unit = some u := h.resolve_right hn
    simp [blanks, hn, hunit]

/-- The blanks printed for a level, before a text that starts with no blank, are read as that level, and
reading them changes nothing. As long as no indented line has been looked at, only the level zero can be
printed. -/
theorem depth_blanks (looks : List (Look α)) {n : Nat}
    (hn : (∀ x ∈ looks, isIndented x.line = false) → n = 0)
    {r : Text} {c : Char} (hr : r.head? = some c) (hc : isBlank c = false) :
    ∃ space, (learn looks).blanks n = .ok space ∧
      (learn looks).depth (space ++ r) = .ok (n, learn looks) := by
  have hunit := unit_learn looks
  cases hfirst : first? (looks.map Look.line) with
  | some u =>
    rw [hfirst] at hunit
    refine ⟨u.times n, blanks_eq (.inl hunit), ?_⟩
    exact Compile.depth_known (indents_first hfirst) (.inl hunit) hr hc
  | none =>
    have hnone : ∀ x ∈ looks, isIndented x.line = false := by
      intro x hx
      rw [first?, Option.map_eq_none_iff, find?_eq_none] at hfirst
      exact Bool.eq_false_iff.mpr (hfirst x.line (mem_map_of_mem hx))
    obtain rfl := hn hnone
    exact ⟨[], rfl, Compile.depth_zero hr hc⟩

/-- A blank line that ends in a carriage return sets a unit of four characters, also if the line before
it could not be entered. -/
theorem depth_blanks_blankLine :
    let looks : List (Look Text) := [.enter [] "a\n" "a", .enter [] "b" "b", .find " \t\r\n"]
    (learn looks).unit = some " \t\r\n".toList ∧
    ∃ space, (learn looks).blanks 2 = .ok space ∧
      (learn looks).depth (space ++ "|".toList) = .ok (2, learn looks) := by
  refine ⟨by decide, ?_⟩
  exact depth_blanks _ (n := 2) (fun h => absurd (h (.find " \t\r\n") (by simp)) (by decide))
    (c := '|') rfl rfl

end Indentation
end OutlineMarkup
