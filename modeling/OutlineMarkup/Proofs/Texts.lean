import Mathlib.Data.List.Chain
import Mathlib.Data.List.Infix
import OutlineMarkup.Text

/-!
# Cuts and searches

What the cuts and searches on texts give where the separator is absent, or where its place is
known. A reader of the language that looks for a sign finds none in a text that lacks the sign,
and then leaves the text alone.
-/

namespace OutlineMarkup.Text
open List

/-- What is said of all characters of a text is decided on the text, not on all characters. -/
instance (priority := high) decidableForallMem (s : Text) (p : Char → Prop) [DecidablePred p] :
    Decidable (∀ c ∈ s, p c) := List.decidableBAll p s

/-! ## Occurrences -/

theorem cut?_isSome_iff (s part : Text) : (cut? s part).isSome ↔ part <:+: s := by
  induction s with
  | nil => cases part <;> simp [cut?]
  | cons c s ih =>
    by_cases h : part.isPrefixOf (c :: s)
    · simp only [cut?, h, if_true, Option.isSome_some, true_iff]
      exact IsPrefix.isInfix <| isPrefixOf_iff_prefix.mp h
    · simp only [cut?, h, Bool.false_eq_true, if_false, Option.isSome_map, ih]
      rw [infix_cons_iff, ← isPrefixOf_iff_prefix]
      simp [h]

theorem has_iff_isInfix (s part : Text) : s.has part ↔ part <:+: s := cut?_isSome_iff s part

theorem has_eq_false_iff (s part : Text) : s.has part = false ↔ ¬ part <:+: s := by
  rw [← has_iff_isInfix, Bool.not_eq_true]

variable {s t a b sep old : Text} {c : Char} {p : Char → Bool}

theorem has_eq_false_of_not_mem {part : Text} (hc : c ∈ part) (h : c ∉ s) : s.has part = false := by
  rw [has_eq_false_iff]
  exact fun hi => h (hi.subset hc)

theorem has_of_isInfix {part : Text} (h : s.has part) (hst : s <:+: t) : t.has part :=
  (has_iff_isInfix t part).mpr (((has_iff_isInfix s part).mp h).trans hst)

theorem has_eq_false_of_isInfix {part : Text} (h : t.has part = false) (hst : s <:+: t) :
    s.has part = false := by
  cases hs : s.has part with
  | false => rfl
  | true => rw [has_of_isInfix hs hst] at h; exact h

theorem cut?_eq_none {part : Text} (h : s.has part = false) : cut? s part = none := by
  simpa [has] using h

theorem eq_of_cut? {part : Text} (h : cut? s part = some (a, b)) : s = a ++ (part ++ b) := by
  induction s generalizing a with
  | nil =>
    unfold cut? at h
    split at h
    · rename_i hempty
      obtain ⟨rfl, rfl⟩ := Prod.mk.inj (Option.some.inj h)
      rw [isEmpty_iff.mp hempty]
      rfl
    · cases h
  | cons c s ih =>
    unfold cut? at h
    split at h
    · rename_i hprefix
      obtain ⟨rest, hrest⟩ := isPrefixOf_iff_prefix.mp hprefix
      obtain ⟨rfl, rfl⟩ := Prod.mk.inj (Option.some.inj h)
      rw [← hrest, drop_left]
      rfl
    · obtain ⟨⟨x, y⟩, hxy, heq⟩ := Option.map_eq_some_iff.mp h
      obtain ⟨rfl, rfl⟩ := Prod.mk.inj heq
      rw [ih hxy]
      rfl

theorem before_eq_self {part : Text} (h : s.has part = false) : s.before part = s := by
  simp [before, cut?_eq_none h]

theorem hasChar_iff (s : Text) (c : Char) : s.hasChar c ↔ c ∈ s := by
  simp [hasChar]

theorem hasChar_eq_false_iff (s : Text) (c : Char) : s.hasChar c = false ↔ c ∉ s := by
  rw [← hasChar_iff, Bool.not_eq_true]

theorem cut?_append_cons (h : c ∉ a) : cut? (a ++ c :: b) [c] = some (a, b) := by
  induction a with
  | nil => simp [cut?]
  | cons d a ih =>
    have hd : c ≠ d := fun e => h (e ▸ mem_cons_self)
    have ha : c ∉ a := fun m => h (.tail _ m)
    simp [cut?, hd, ih ha]

theorem before_append_cons (h : c ∉ a) : (a ++ c :: b).before [c] = a := by
  simp [before, cut?_append_cons h]

theorem cutLast?_eq_none (h : c ∉ s) : cutLast? s [c] = none := by
  induction s with
  | nil => simp [cutLast?]
  | cons d s ih =>
    have hd : c ≠ d := fun e => h (e ▸ mem_cons_self)
    have hs : c ∉ s := fun m => h (.tail _ m)
    simp [cutLast?, ih hs, hd]

theorem cutLast?_append_cons (h : c ∉ b) : cutLast? (a ++ c :: b) [c] = some (a, b) := by
  induction a with
  | nil => simp [cutLast?, cutLast?_eq_none h]
  | cons d a ih => simp [cutLast?, ih]

theorem infix_of_head_not_mem {r : Text} (ha : c ∉ a) (h : c :: r <:+: a ++ s) : c :: r <:+: s := by
  induction a with
  | nil => exact h
  | cons d a ih =>
    rcases infix_cons_iff.mp h with hp | hi
    · obtain ⟨rfl, _⟩ := cons_prefix_cons.mp hp
      exact absurd mem_cons_self ha
    · exact ih (fun hm => ha (.tail _ hm)) hi

theorem infix_of_infix_append_left {part : Text} (hne : part ≠ [])
    (ha : ∀ c ∈ part, c ∉ a) (h : part <:+: a ++ s) : part <:+: s := by
  obtain ⟨c, r, rfl⟩ := exists_cons_of_ne_nil hne
  exact infix_of_head_not_mem (ha c mem_cons_self) h

theorem infix_of_infix_append_right {part : Text} (hne : part ≠ [])
    (hb : ∀ c ∈ part, c ∉ b) (h : part <:+: s ++ b) : part <:+: s := by
  have hr : part.reverse <:+: b.reverse ++ s.reverse := by
    rw [← reverse_append]
    exact reverse_infix.mpr h
  refine reverse_infix.mp (infix_of_infix_append_left (by simpa using hne) ?_ hr)
  intro c hc hm
  exact hb c (mem_reverse.mp hc) (mem_reverse.mp hm)

/-- A part without a character ends before the character comes. -/
theorem prefix_of_append_cons {part : Text} (hc : c ∉ part) (h : part <+: a ++ c :: b) : part <+: a := by
  obtain ⟨rest, hrest⟩ := h
  rcases append_eq_append_iff.mp hrest with ⟨x, hx, _⟩ | ⟨y, rfl, hy⟩
  · exact hx ▸ prefix_append part x
  · cases y with
    | nil => simp
    | cons d y =>
      obtain ⟨rfl, _⟩ := cons.inj hy
      exact absurd (mem_append_right _ mem_cons_self) hc

theorem infix_append_cons {part : Text} (hc : c ∉ part)
    (h : part <:+: a ++ c :: b) : part <:+: a ∨ part <:+: b := by
  induction a with
  | nil =>
    rcases infix_cons_iff.mp h with hp | hi
    · exact .inl (prefix_of_append_cons (a := []) hc hp).isInfix
    · exact .inr hi
  | cons d a ih =>
    rcases infix_cons_iff.mp h with hp | hi
    · exact .inl (prefix_of_append_cons (a := d :: a) hc hp).isInfix
    · rcases ih hi with h | h
      · exact .inl (h.trans (suffix_cons d a).isInfix)
      · exact .inr h

theorem infix_append_of_head {r : Text} (hc : c ∉ r) (h : c :: r <:+: a ++ c :: b) :
    c :: r <:+: a ∨ c :: r <+: c :: b ∨ c :: r <:+: b := by
  induction a with
  | nil => exact .inr (infix_cons_iff.mp h)
  | cons d a ih =>
    rcases infix_cons_iff.mp h with hp | hi
    · obtain ⟨rfl, hr⟩ := cons_prefix_cons.mp hp
      exact .inl (cons_prefix_cons.mpr ⟨rfl, prefix_of_append_cons hc hr⟩).isInfix
    · rcases ih hi with h | h
      · exact .inl (h.trans (suffix_cons d a).isInfix)
      · exact .inr h

/-! ## Splitting and replacing -/

theorem splitFrom_eq_singleton (h : s.has sep = false) : splitFrom sep 0 s = [s] := by
  induction s with
  | nil => rfl
  | cons c s ih =>
    have hs : has s sep = false := has_eq_false_of_isInfix h (suffix_cons c s).isInfix
    have hp : sep.isPrefixOf (c :: s) = false := by
      rw [← Bool.not_eq_true, isPrefixOf_iff_prefix]
      exact fun hp => (has_eq_false_iff _ _).mp h hp.isInfix
    simp [splitFrom, hp, ih hs, consHead]

theorem split_eq_singleton (h : s.has sep = false) : s.split sep = [s] := splitFrom_eq_singleton h

theorem splitFrom_ne_nil (sep : Text) (k : Nat) (s : Text) : splitFrom sep k s ≠ [] := by
  induction s generalizing k with
  | nil => cases k <;> simp [splitFrom]
  | cons c s ih =>
    cases k with
    | succ k => exact ih k
    | zero =>
      rw [splitFrom]
      split
      · simp
      · cases splitFrom sep 0 s <;> simp [consHead]

theorem splitFrom_eq_drop (sep : Text) (k : Nat) (s : Text) :
    splitFrom sep k s = splitFrom sep 0 (s.drop k) := by
  induction k generalizing s with
  | zero => rfl
  | succ k ih =>
    cases s with
    | nil => rfl
    | cons c s => exact ih s

theorem replace_cons (c : Char) (s old new : Text) : replace (c :: s) old new =
      if old.isPrefixOf (c :: s) then new ++ replace (s.drop (old.length - 1)) old new
      else c :: replace s old new := by
  rw [replace, split, splitFrom]
  split
  · rw [splitFrom_eq_drop, replace, split]
    obtain ⟨p, ps, hps⟩ := exists_cons_of_ne_nil (splitFrom_ne_nil old 0 (s.drop (old.length - 1)))
    simp [hps, join]
  · rw [replace, split]
    obtain ⟨p, ps, hps⟩ := exists_cons_of_ne_nil (splitFrom_ne_nil old 0 s)
    cases ps <;> simp [hps, join, consHead]

theorem replace_append_self (hne : old ≠ []) (s new : Text) :
    replace (old ++ s) old new = new ++ replace s old new := by
  obtain ⟨c, r, rfl⟩ := exists_cons_of_ne_nil hne
  have hprefix : (c :: r).isPrefixOf (c :: (r ++ s)) := isPrefixOf_iff_prefix.mpr (prefix_append (c :: r) s)
  rw [cons_append, replace_cons, if_pos hprefix, length_cons, Nat.add_sub_cancel, drop_left]

theorem replace_append_of_clear (h : ∀ y, y <:+ t → y ≠ [] → ¬ old <+: y ++ s) (new : Text) :
    replace (t ++ s) old new = t ++ replace s old new := by
  induction t with
  | nil => rfl
  | cons c t ih =>
    have hstart : ¬ old.isPrefixOf (c :: (t ++ s)) := fun hp =>
      h (c :: t) suffix_rfl (cons_ne_nil c t) <| isPrefixOf_iff_prefix.mp hp
    rw [cons_append, replace_cons, if_neg hstart, ih fun y hy => h y (hy.trans (suffix_cons c t))]
    rfl

theorem replace_append (h : c ∉ a) (b old new : Text) :
    replace (a ++ b) (c :: old) new = a ++ replace b (c :: old) new := by
  apply replace_append_of_clear
  intro y hy hne hp
  obtain ⟨d, y, rfl⟩ := exists_cons_of_ne_nil hne
  obtain ⟨rfl, _⟩ := cons_prefix_cons.mp hp
  exact h (hy.subset mem_cons_self)

theorem length_replace {new : Text} (hlt : new.length < old.length) (s : Text) :
    (replace s old new).length ≤ s.length ∧ (old <:+: s → (replace s old new).length < s.length) := by
  induction hlength : s.length using Nat.strong_induction_on generalizing s with
  | _ n ih =>
    subst hlength
    have hne : old ≠ [] := ne_nil_of_length_pos (by omega)
    cases s with
    | nil => exact ⟨Nat.le_refl _, fun hi => absurd (infix_nil.mp hi) hne⟩
    | cons c s =>
      rw [replace_cons]
      by_cases hprefix : old.isPrefixOf (c :: s)
      · have hfits := IsPrefix.length_le <| isPrefixOf_iff_prefix.mp hprefix
        have hrest := (ih (s.drop (old.length - 1)).length
          (by simp only [length_drop, length_cons]; omega) _ rfl).1
        rw [if_pos hprefix]
        simp only [length_append, length_drop, length_cons] at hfits hrest ⊢
        omega
      · obtain ⟨hle, hin⟩ := ih s.length (Nat.lt_succ_self _) s rfl
        rw [if_neg hprefix]
        refine ⟨Nat.succ_le_succ hle, ?_⟩
        intro hi
        rcases infix_cons_iff.mp hi with hp | hi
        · exact absurd hp (mt isPrefixOf_iff_prefix.mpr hprefix)
        · exact Nat.succ_lt_succ (hin hi)

theorem replace_eq_self (h : s.has old = false) (new : Text) : s.replace old new = s := by
  simp [replace, split_eq_singleton h, join]

theorem replace_eq_self_of_not_mem (hc : c ∈ old) (h : c ∉ s) (new : Text) : s.replace old new = s :=
  replace_eq_self (has_eq_false_of_not_mem hc h) new

theorem replace_last (h : c ∉ s) : (s ++ [c]).replace [c] [] = s := by
  have go : ∀ s : Text, c ∉ s → splitFrom [c] 0 (s ++ [c]) = [s, []] := by
    intro s
    induction s with
    | nil => simp [splitFrom]
    | cons d s ih =>
      intro h
      have hd : c ≠ d := fun e => h (e ▸ mem_cons_self)
      have hs : c ∉ s := fun m => h (.tail _ m)
      simp [splitFrom, hd, ih hs, consHead]
  simp [replace, split, go s h, join]

theorem join_cons_cons (sep p q : Text) (parts : List Text) :
    join sep (p :: q :: parts) = p ++ (sep ++ join sep (q :: parts)) := by simp [join]

theorem infix_join {w : Text} {parts : List Text} (h : w ∈ parts) : w <:+: join sep parts := by
  induction parts with
  | nil => cases h
  | cons p parts ih =>
    cases parts with
    | nil =>
      rw [mem_singleton.mp h]
      simp [join]
    | cons q parts =>
      rw [join_cons_cons]
      rcases mem_cons.mp h with rfl | h
      · exact (prefix_append w _).isInfix
      · exact (ih h).trans ((suffix_append _ _).trans (suffix_append _ _)).isInfix

theorem mem_join {parts : List Text} (h : c ∈ join sep parts) : c ∈ sep ∨ ∃ p ∈ parts, c ∈ p := by
  induction parts with
  | nil => simp [join] at h
  | cons p ps ih =>
    cases ps with
    | nil => exact .inr ⟨p, mem_cons_self, by simpa [join] using h⟩
    | cons q qs =>
      have hcut : c ∈ p ∨ c ∈ sep ∨ c ∈ join sep (q :: qs) := by simpa [join] using h
      rcases hcut with hp | hs | hr
      · exact .inr ⟨p, mem_cons_self, hp⟩
      · exact .inl hs
      · rcases ih hr with hs | ⟨r, hr, hc⟩
        · exact .inl hs
        · exact .inr ⟨r, .tail _ hr, hc⟩

/-! ## Pieces -/

theorem pieces_of_forall_not (h : ∀ c ∈ s, p c = false) : pieces p s = [s] := by
  induction s with
  | nil => rfl
  | cons c s ih =>
    have hs : ∀ c ∈ s, p c = false := (forall_mem_cons.mp h).2
    simp [pieces, h c mem_cons_self, ih hs, consHead]

theorem pieces_append_cons
    (ha : ∀ c ∈ a, p c = false) (hc : p c) : pieces p (a ++ c :: b) = a :: pieces p b := by
  induction a with
  | nil => simp [pieces, hc]
  | cons d a ih =>
    have hs : ∀ c ∈ a, p c = false := (forall_mem_cons.mp ha).2
    simp [pieces, ha d mem_cons_self, ih hs, consHead]

theorem splitAtChar_of_not_mem (h : c ∉ s) : s.splitAtChar c = [s] :=
  pieces_of_forall_not fun _ hd => beq_false_of_ne fun heq => h (heq ▸ hd)

theorem splitAtChar_append_cons (ha : c ∉ a) (b : Text) : (a ++ c :: b).splitAtChar c = a :: b.splitAtChar c :=
  pieces_append_cons (fun _ hd => beq_false_of_ne fun heq => ha (heq ▸ hd)) (beq_self_eq_true c)

theorem pieces_ne_nil (p : Char → Bool) (s : Text) : pieces p s ≠ [] := by
  cases s with
  | nil => simp [pieces]
  | cons c s =>
    simp only [pieces]
    split
    · simp
    · cases pieces p s <;> simp [consHead]

theorem pieces_append_separator (hc : p c) (a b : Text) :
    pieces p (a ++ c :: b) = pieces p a ++ pieces p b := by
  induction a with
  | nil => simp [pieces, hc]
  | cons d a ih =>
    rw [cons_append, pieces, pieces, ih]
    split
    · rfl
    · cases ha : pieces p a with
      | nil => exact absurd ha (pieces_ne_nil p a)
      | cons w ws => rfl

theorem pieces_concat (hc : p c) (s : Text) :
    pieces p (s ++ [c]) = pieces p s ++ [[]] := pieces_append_separator hc s []

theorem infix_of_mem_pieces {w : Text} (h : w ∈ pieces p s) : w <:+: s := by
  -- The first piece starts the text, which is what the induction needs of it.
  have go : ∀ s : Text, (∀ w ∈ pieces p s, w <:+: s) ∧ ∀ w ∈ (pieces p s).head?, w <+: s := by
    intro s
    induction s with
    | nil => simp [pieces]
    | cons c s ih =>
      obtain ⟨hall, hhead⟩ := ih
      simp only [pieces]
      split
      · refine ⟨?_, by simp⟩
        intro w hw
        rcases mem_cons.mp hw with rfl | hw
        · exact nil_infix
        · exact (hall w hw).trans (suffix_cons c s).isInfix
      · cases hp : pieces p s with
        | nil => exact absurd hp (pieces_ne_nil p s)
        | cons q qs =>
          rw [hp] at hall hhead
          have hq : c :: q <+: c :: s := by
            simpa using hhead q (by simp)
          refine ⟨?_, by simpa [consHead] using hq⟩
          intro w hw
          rcases mem_cons.mp hw with rfl | hw
          · exact hq.isInfix
          · exact (hall w (.tail _ hw)).trans (suffix_cons c s).isInfix
  exact (go s).1 w h

/-! ## Blanks -/

/-- Starts and ends with a character that is not blank. -/
structure Solid (s : Text) : Prop where
  head : ∃ c, s.head? = some c ∧ isBlank c = false
  last : ∃ c, s.getLast? = some c ∧ isBlank c = false

theorem Solid.ne_nil (h : Solid s) : s ≠ [] := by
  rintro rfl
  obtain ⟨c, hc, _⟩ := h.head
  simp at hc

theorem Solid.between (ha : Solid a) (m : Text) (hb : Solid b) : Solid (a ++ (m ++ b)) := by
  obtain ⟨c, hc, hcb⟩ := ha.head
  obtain ⟨d, hd, hdb⟩ := hb.last
  refine ⟨⟨c, ?_, hcb⟩, ⟨d, ?_, hdb⟩⟩
  · rw [head?_append, hc]
    rfl
  · rw [getLast?_append, getLast?_append, hd]
    rfl

theorem dropWhile_append_solid (ha : ∀ c ∈ a, isBlank c) (hs : Solid s) :
    (a ++ (s ++ b)).dropWhile isBlank = s ++ b := by
  rw [dropWhile_append_of_pos ha]
  obtain ⟨c, hc, hb⟩ := hs.head
  obtain ⟨t, rfl⟩ : ∃ t, s = c :: t := head?_eq_some_iff.mp hc
  simp [hb]

theorem takeWhile_append_solid (ha : ∀ c ∈ a, isBlank c) (hs : Solid s) :
    (a ++ (s ++ b)).takeWhile isBlank = a := by
  rw [takeWhile_append_of_pos ha]
  obtain ⟨c, hc, hb⟩ := hs.head
  obtain ⟨t, rfl⟩ : ∃ t, s = c :: t := head?_eq_some_iff.mp hc
  simp [hb]

theorem trimRight_append_solid (hb : ∀ c ∈ b, isBlank c) (hs : Solid s) : trimRight (s ++ b) = s := by
  have hr : ∀ c ∈ b.reverse, isBlank c := fun c hc => hb c (mem_reverse.mp hc)
  obtain ⟨c, hc, hcb⟩ := hs.last
  obtain ⟨t, rfl⟩ := getLast?_eq_some_iff.mp hc
  rw [trimRight, dropRightWhile, reverse_append, dropWhile_append_of_pos hr]
  simp [hcb]

theorem trim_append_solid (ha : ∀ c ∈ a, isBlank c)
    (hb : ∀ c ∈ b, isBlank c) (hs : Solid s) : trim (a ++ (s ++ b)) = s := by
  rw [trim, trimLeft, dropWhile_append_solid ha hs, trimRight_append_solid hb hs]

theorem trimRight_append_blank (hb : ∀ c ∈ b, isBlank c) (s : Text) : trimRight (s ++ b) = trimRight s := by
  have hr : ∀ c ∈ b.reverse, isBlank c := fun c hc => hb c (mem_reverse.mp hc)
  rw [trimRight, dropRightWhile, reverse_append, dropWhile_append_of_pos hr]
  rfl

theorem trim_append_blank (hb : ∀ c ∈ b, isBlank c) (s : Text) : trim (s ++ b) = trim s := by
  rw [trim, trim, trimLeft, trimLeft, dropWhile_append]
  split
  · rename_i hempty
    have hnil : (b ++ []).dropWhile isBlank = [] := dropWhile_append_of_pos hb
    rw [append_nil] at hnil
    rw [isEmpty_iff.mp hempty, hnil]
  · exact trimRight_append_blank hb _

theorem trimRight_isPrefix (s : Text) : s.trimRight <+: s := by
  have hreverse := reverse_prefix.mpr (dropWhile_suffix (l := s.reverse) isBlank)
  rwa [reverse_reverse] at hreverse

theorem mem_of_mem_trimRight (h : c ∈ s.trimRight) : c ∈ s := (trimRight_isPrefix s).subset h

theorem trimRight_append_cons (hc : isBlank c = false) (a b : Text) :
    trimRight (a ++ c :: b) = a ++ c :: trimRight b := by
  simp only [trimRight, dropRightWhile, reverse_append, reverse_cons, append_assoc, dropWhile_append]
  split
  · rename_i hempty
    have hall : b.reverse.dropWhile isBlank = [] := isEmpty_iff.mp hempty
    simp [hall, hc]
  · simp

theorem trimLeft_append_cons (hc : isBlank c = false) (a b : Text) :
    trimLeft (a ++ c :: b) = trimLeft a ++ c :: b := by
  rw [trimLeft, trimLeft, dropWhile_append]
  split
  · rename_i hempty
    rw [isEmpty_iff.mp hempty, dropWhile_cons_of_neg (by simp [hc])]
    rfl
  · rfl

def continuing (pending line : Text) : Text := if pending.isEmpty then line else ' ' :: line.trimLeft

theorem continuing_append_cons (hc : isBlank c = false) (pending a b : Text) :
    continuing pending (a ++ c :: b) = continuing pending a ++ c :: b := by
  rw [continuing, continuing]
  split
  · rfl
  · rw [trimLeft_append_cons hc]
    rfl

theorem mem_of_mem_trimLeft (h : c ∈ s.trimLeft) : c ∈ s := (dropWhile_suffix _).subset h

theorem mem_of_mem_trim (h : c ∈ s.trim) : c ∈ s := mem_of_mem_trimLeft (mem_of_mem_trimRight h)

theorem length_trim_le (s : Text) : s.trim.length ≤ s.length := by
  rw [trim, trimRight, dropRightWhile, length_reverse]
  have hright := (dropWhile_suffix isBlank (l := s.trimLeft.reverse)).length_le
  have hleft := (dropWhile_suffix isBlank (l := s)).length_le
  rw [length_reverse] at hright
  exact Nat.le_trans hright hleft

theorem Solid.trim_eq (hs : Solid s) : s.trim = s := by
  simpa using trim_append_solid (a := []) (b := []) (by simp) (by simp) hs

theorem Solid.trimRight_eq (hs : Solid s) : s.trimRight = s := by
  simpa using trimRight_append_solid (b := []) (by simp) hs

theorem solid_of_forall (hne : s ≠ []) (h : ∀ c ∈ s, isBlank c = false) : Solid s where
  head := ⟨s.head hne, head?_eq_some_head hne, h _ (head_mem hne)⟩
  last := ⟨s.getLast hne, getLast?_eq_some_getLast hne, h _ (getLast_mem hne)⟩

theorem trimOf_eq_self (h : ∀ c ∈ t, p c = false) : t.trimOf p = t := by
  have hdrop : ∀ t : Text, (∀ c ∈ t, p c = false) → t.dropWhile p = t := by
    intro t ht
    cases t with
    | nil => rfl
    | cons c t => rw [dropWhile_cons_of_neg (by simp [ht c mem_cons_self])]
  rw [trimOf, hdrop t h, dropRightWhile, hdrop _ fun c hc => h c (mem_reverse.mp hc), reverse_reverse]

/-! ## Copies -/

@[simp] theorem times_zero (s : Text) : s.times 0 = [] := rfl

theorem times_succ (s : Text) (n : Nat) : s.times (n + 1) = s ++ s.times n := by
  simp [times, replicate_succ]

@[simp] theorem times_one (s : Text) : s.times 1 = s := by simp [times_succ]

theorem times_add (s : Text) (m n : Nat) : s.times (m + n) = s.times m ++ s.times n := by
  induction m with
  | zero => simp
  | succ m ih => simp [Nat.succ_add, times_succ, ih]

@[simp] theorem length_times (s : Text) (n : Nat) : (s.times n).length = n * s.length := by
  simp [times]

theorem mem_times {n : Nat} (h : c ∈ s.times n) : c ∈ s := by
  simp only [times, mem_flatten, mem_replicate] at h
  obtain ⟨t, ⟨_, rfl⟩, hc⟩ := h
  exact hc

/-! ## Lines -/

theorem lines_append_newline (h : '\n' ∉ s) (rest : Text) :
    lines (s ++ '\n' :: rest) = (s ++ ['\n']) :: lines rest := by
  induction s with
  | nil => simp [lines]
  | cons c s ih =>
    have hc : c ≠ '\n' := fun e => h (e ▸ mem_cons_self)
    have hs : '\n' ∉ s := fun m => h (.tail _ m)
    simp [lines, hc, ih hs, consHead]

theorem lines_of_not_mem (hne : s ≠ []) (h : '\n' ∉ s) : lines s = [s] := by
  induction s with
  | nil => exact absurd rfl hne
  | cons c s ih =>
    have hc : c ≠ '\n' := fun e => h (e ▸ mem_cons_self)
    have hs : '\n' ∉ s := fun m => h (.tail _ m)
    cases s with
    | nil => simp [lines, hc, consHead]
    | cons d s => rw [lines, if_neg hc, ih (by simp) hs, consHead]

end OutlineMarkup.Text
