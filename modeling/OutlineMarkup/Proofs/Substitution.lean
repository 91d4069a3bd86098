import OutlineMarkup.Proofs.Templates

/-!
# Substitution

A line is read as characters and references to variables: a dollar sign with the longest name behind it,
unless a backslash stands before it. Where no reference touches a dollar sign, a line with some of its
references filled is still read as those characters and the references that are left, so replacing the
variables one after another comes to the same as filling all references at once.
-/

namespace OutlineMarkup
open List Text Reference

namespace Template

/-! ## Reading references -/

/-- The slots of a text; the counter skips characters of a name dealt with. -/
def slotsFrom : (skip : Nat) → (previous : Option Char) → Text → Template
  | _, _, [] => []
  | k + 1, _, c :: s => slotsFrom k (some c) s
  | 0, previous, c :: s =>
    if c == '$' && previous != some '\\' && s.head?.any Text.isNameStart then
      .ref (s.takeWhile Text.isWordChar) ::
        slotsFrom (s.takeWhile Text.isWordChar).length (some c) s
    else .char c :: slotsFrom 0 (some c) s

/-- The characters of a text, and its references with the longest names, except behind backslashes. -/
def slots (s : Text) : Template := slotsFrom 0 none s

theorem source_slotsFrom (k : Nat) (p : Option Char) (s : Text) : (slotsFrom k p s).source = s.drop k := by
  induction s generalizing k p with
  | nil => cases k <;> rfl
  | cons c s ih =>
    cases k with
    | succ k => exact ih k _
    | zero =>
      rw [slotsFrom]
      split
      · rename_i href
        simp only [Bool.and_eq_true, beq_iff_eq] at href
        obtain ⟨⟨rfl, _⟩, _⟩ := href
        have hrest : source (slotsFrom (s.takeWhile isWordChar).length (some '$') s) =
            s.dropWhile isWordChar := by
          rw [ih]
          nth_rewrite 2 [← takeWhile_append_dropWhile (p := isWordChar) (l := s)]
          exact drop_left
        change '$' :: (s.takeWhile isWordChar ++ source _) = _
        rw [hrest, takeWhile_append_dropWhile]
        rfl
      · change c :: source _ = _
        rw [ih]
        rfl

@[simp] theorem source_slots (s : Text) : (slots s).source = s := source_slotsFrom 0 none s

theorem takeWhile_append_cons {c : Char} (hc : isWordChar c = false) (s t : Text) :
    (s ++ c :: t).takeWhile isWordChar = s.takeWhile isWordChar := by
  induction s with
  | nil => simp [hc]
  | cons d s ih => rw [cons_append, takeWhile_cons, takeWhile_cons, ih]

/-- A character that ends a name, and neither starts nor escapes one. -/
def isSeparator (c : Char) : Bool := !Text.isWordChar c && c != '$' && c != '\\'

section Separator
variable {c : Char} (hc : isSeparator c)
include hc

theorem slotsFrom_append (k : Nat) (p : Option Char) (s t : Text) (hk : k ≤ s.length) :
    slotsFrom k p (s ++ c :: t) = slotsFrom k p s ++ .char c :: slots t := by
  simp only [isSeparator, Bool.and_eq_true, Bool.not_eq_true', bne_iff_ne] at hc
  obtain ⟨⟨hword, hdollar⟩, hslash⟩ := hc
  induction s generalizing k p with
  | nil =>
    obtain rfl : k = 0 := Nat.le_zero.mp hk
    change slotsFrom 0 p (c :: t) = .char c :: slotsFrom 0 none t
    rw [slotsFrom, beq_false_of_ne hdollar]
    cases t with
    | nil => rfl
    | cons d t => simp [slotsFrom, hslash]
  | cons d s ih =>
    cases k with
    | succ k => exact ih k _ (Nat.le_of_succ_le_succ hk)
    | zero =>
      have hhead : (s ++ c :: t).head?.any isNameStart = s.head?.any isNameStart := by
        cases s with
        | nil => exact Bool.eq_false_iff.mpr fun h => by simp [isWordChar_of_isNameStart h] at hword
        | cons d s => rfl
      rw [cons_append, slotsFrom, slotsFrom, hhead, takeWhile_append_cons hword]
      split
      · rw [ih _ _ <| IsPrefix.length_le <| takeWhile_prefix _]
        rfl
      · rw [ih 0 _ (Nat.zero_le _)]
        rfl

theorem slots_append (s t : Text) : slots (s ++ c :: t) = slots s ++ .char c :: slots t :=
  slotsFrom_append hc 0 none s t (Nat.zero_le _)

end Separator

theorem isName_takeWhile {d : Char} (hd : isNameStart d) (s : Text) :
    isName ((d :: s).takeWhile isWordChar) := by
  rw [takeWhile_cons_of_pos (isWordChar_of_isNameStart hd), isName, hd]
  simp only [Bool.true_and, all_eq_true]
  exact fun c hc => mem_takeWhile_imp hc

theorem faithful_slotsFrom (p : Option Char) (s : Text) : Faithful (p == some '\\') (slotsFrom 0 p s) := by
  induction hlength : s.length using Nat.strong_induction_on generalizing p s with
  | _ n ih =>
    subst hlength
    cases s with
    | nil => trivial
    | cons c s =>
      have hshorter : s.length < (c :: s).length := Nat.lt_succ_self _
      rw [slotsFrom]
      split
      · rename_i href
        simp only [Bool.and_eq_true, beq_iff_eq, bne_iff_ne] at href
        obtain ⟨⟨rfl, hp⟩, hstart⟩ := href
        have hword : ∀ c ∈ s.takeWhile isWordChar, isWordChar c := fun c hc => mem_takeWhile_imp hc
        obtain ⟨q, hq, hskip⟩ := scan_word slotsFrom (fun _ _ _ _ _ => rfl) hword
          (s.dropWhile isWordChar) (p := some '$') (by decide)
        rw [takeWhile_append_dropWhile] at hskip
        have hname : isName (s.takeWhile isWordChar) := by
          cases s with
          | nil => cases hstart
          | cons d s => exact isName_takeWhile hstart s
        refine ⟨beq_false_of_ne hp, hname, ?_, ?_⟩
        · intro d hd
          rw [hskip, source_slotsFrom, drop_zero] at hd
          have hhead := head?_dropWhile_not isWordChar s
          rw [Option.mem_def.mp hd] at hhead
          simpa using hhead
        · rw [hskip, ← beq_false_of_ne hq]
          refine ih _ ?_ q _ rfl
          exact Nat.lt_of_le_of_lt (dropWhile_suffix _).length_le hshorter
      · rename_i href
        refine ⟨?_, ?_⟩
        · rintro rfl hp d hd
          rw [source_slotsFrom, drop_zero] at hd
          cases hstart : isNameStart d with
          | false => rfl
          | true =>
            refine absurd ?_ href
            simp [bne, hp, Option.mem_def.mp hd, hstart]
        · have hrest := ih s.length hshorter (some c) s rfl
          simpa using hrest

theorem faithful_slots (s : Text) : Faithful false (slots s) := faithful_slotsFrom none s

theorem all_eq_names (s : Text) : Reference.all s = (slots s).names.map ('$' :: ·) := by
  have h : Reference.allFrom none (slots s).source = _ := (faithful_slots s).allFrom_source rfl
  rwa [source_slots] at h

theorem isName_of_mem_names {escaped : Bool} {t : Template} (h : Faithful escaped t) :
    ∀ n ∈ t.names, n.isName := by
  induction t generalizing escaped with
  | nil => exact fun n hn => absurd hn not_mem_nil
  | cons x t ih =>
    cases x with
    | char c => exact ih h.2
    | ref m =>
      intro n hn
      rcases mem_cons.mp hn with rfl | hn
      · exact h.2.1
      · exact ih h.2.2.2 n hn

variable {vars : Variables} {env : Text → Text} {escaped : Bool} {t : Template} {K : List Text}
  {n : Text}

theorem replaceEach_cons (env : Text → Text) (hn : n.isName) (hvalue : HasValue vars n (env n))
    (rest : List Text) (s : Text) : replaceEach vars (('$' :: n) :: rest) s =
      replaceEach vars rest ((slots s).fillIn [n] env).source := by
  have hone := (faithful_slots s).replaceEach_single env hn hvalue
  rw [source_slots] at hone
  rw [← singleton_append, replaceEach_append, hone]
  rfl

/-! ## References that stand apart -/

theorem fillIn_char (K : List Text) (c : Char) (t : Template) :
    fillIn K env (.char c :: t) = .char c :: fillIn K env t := rfl

theorem fillIn_ref_of_mem (h : n ∈ K) (t : Template) :
    fillIn K env (.ref n :: t) = (env n).map .char ++ fillIn K env t := by
  change Slot.fillIn K env (.ref n) ++ fillIn K env t = _
  rw [Slot.fillIn, if_pos h]

theorem fillIn_ref_of_not_mem (h : n ∉ K) (t : Template) :
    fillIn K env (.ref n :: t) = .ref n :: fillIn K env t := by
  change Slot.fillIn K env (.ref n) ++ fillIn K env t = _
  rw [Slot.fillIn, if_neg h]
  rfl

/-- The reference with which a text starts. -/
def leading : Template → Option Text
  | .ref n :: _ => some n
  | _ => none

/-- No reference has a dollar sign right before or right behind it. -/
def isApart : Template → Bool
  | [] => true
  | .char c :: t => (c != '$' || (leading t).isNone) && isApart t
  | .ref _ :: t => (source t).head? != some '$' && isApart t

theorem head?_source_fillIn (h : t.leading = none) (K : List Text) :
    (t.fillIn K env).source.head? = t.source.head? := by
  match t, h with
  | [], _ | .char c :: t, _ => rfl
  | .ref n :: t, h => cases h

theorem leading_of_head? (h : t.source.head? ≠ some '$') : t.leading = none := by
  match t, h with
  | [], _ | .char c :: t, _ => rfl
  | .ref n :: t, h => exact absurd rfl h

theorem Faithful.of_head? (h : Faithful escaped t) (hhead : t.source.head? ≠ some '$') (escaped' : Bool) :
    Faithful escaped' t := by
  match t, h, hhead with
  | [], _, _ => trivial
  | .char c :: t, h, hhead =>
    refine ⟨?_, h.2⟩
    rintro rfl
    exact absurd rfl hhead
  | .ref n :: t, _, hhead => exact absurd rfl hhead

theorem faithful_chars_append {w : Text} (hw : '$' ∉ w) (h : ∀ escaped, Faithful escaped t) (escaped : Bool) :
    Faithful escaped (w.map .char ++ t) := by
  induction w generalizing escaped with
  | nil => exact h escaped
  | cons c w ih =>
    refine ⟨?_, ih (fun hm => hw (mem_cons_of_mem _ hm)) _⟩
    rintro rfl
    exact absurd mem_cons_self hw

/-- Filling references that stand apart neither makes, hides nor extends a reference. -/
theorem Faithful.fillIn_apart (h : Faithful escaped t) (hapart : t.isApart)
    (henv : ∀ n ∈ t.names, '$' ∉ env n) (K : List Text) : Faithful escaped (t.fillIn K env) := by
  induction t generalizing escaped with
  | nil => trivial
  | cons x t ih =>
    cases x with
    | char c =>
      obtain ⟨hlone, hrest⟩ := h
      rw [isApart, Bool.and_eq_true] at hapart
      rw [fillIn_char]
      refine ⟨?_, ih hrest hapart.2 henv⟩
      rintro rfl hescaped
      have hleading : leading t = none := by simpa using hapart.1
      rw [head?_source_fillIn hleading]
      exact hlone rfl hescaped
    | ref n =>
      obtain ⟨rfl, hname, hstop, hrest⟩ := h
      rw [isApart, Bool.and_eq_true, bne_iff_ne] at hapart
      have hleading := leading_of_head? hapart.1
      have hfilled := ih hrest hapart.2 (forall_mem_cons.mp henv).2
      have hhead : (source (fillIn K env t)).head? ≠ some '$' := by
        rw [head?_source_fillIn hleading]
        exact hapart.1
      by_cases hn : n ∈ K
      · rw [fillIn_ref_of_mem hn]
        exact faithful_chars_append (henv n mem_cons_self) (hfilled.of_head? hhead) false
      · rw [fillIn_ref_of_not_mem hn]
        refine ⟨rfl, hname, ?_, hfilled⟩
        rw [head?_source_fillIn hleading]
        exact hstop

end Template

/-! ## Simultaneous substitution -/

/-- Variables as a call stores its arguments, with every backslash doubled. -/
def Variables.stored (values : Variables) : Variables :=
  values.map fun (name, value) => (name, Text.replace value "\\" "\\\\")

theorem Variables.get?_stored (values : Variables) (name : Text) :
    Table.get? values.stored name = (Table.get? values name).map (Text.replace · "\\" "\\\\") := by
  induction values with
  | nil => rfl
  | cons p values ih =>
    change (if p.1 = name then _ else _) = Option.map _ (if p.1 = name then _ else _)
    split
    · rfl
    · exact ih

namespace Template
variable {values : Variables} {line : Text}

theorem hasValue_stored {n v : Text} (h : Table.get? values ('$' :: n) = some v) :
    HasValue values.stored n v := by
  refine hasValue_doubled ?_
  rw [Variables.get?_stored, h]
  rfl

theorem not_mem_value {c : Char} (h : ∀ p ∈ values, c ∉ p.2) (name : Text) :
    c ∉ (Table.get? values name).getD [] := by
  induction values with
  | nil => simp [Table.get?]
  | cons p values ih =>
    rw [Table.get?]
    split
    · exact h p mem_cons_self
    · exact ih (forall_mem_cons.mp h).2

/-- The values of the variables that a template refers to, and nothing for those that have none. -/
def valueOf (values : Variables) (n : Text) : Text := (Table.get? values ('$' :: n)).getD []

/-- The variables of a line with their backslashes doubled are replaced one after another. If no
reference touches a dollar sign, the first of them that has no value is named in the rejection; if
all have values, the references are filled at once. -/
theorem resolve_stored_eq_fill (values : Variables) (line : Text) (hvalues : ∀ p ∈ values, '$' ∉ p.2)
    (hapart : (slots line).isApart = true)
    (hmark : (∀ n ∈ (slots line).names, values.has ('$' :: n) = true) →
      ((slots line).fill (valueOf values)).has Call.expressionMark = false) :
    Reference.resolve values.stored line [] =
      match (slots line).names.find? fun n => !values.has ('$' :: n) with
      | some n => .error (.rejected (.undefinedVariable ('$' :: n)))
      | none => .ok ((slots line).fill (valueOf values)) := by
  have hfaithful := faithful_slots line
  have hnames := isName_of_mem_names hfaithful
  have hfilled : ∀ K, Faithful false ((slots line).fillIn K (valueOf values)) :=
    hfaithful.fillIn_apart hapart fun n _ => not_mem_value hvalues ('$' :: n)
  -- As long as the names have values, they are replaced.
  have hrun : ∀ M : List Text, (∀ n ∈ M, n ∈ (slots line).names ∧ values.has ('$' :: n) = true) →
      Reference.replaceEach values.stored (M.map ('$' :: ·)) line =
        .ok ((slots line).fillIn M (valueOf values)).source := by
    intro M hM
    have hstored : ∀ n ∈ M, n.isName = true ∧ Reference.HasValue values.stored n (valueOf values n) := by
      intro n hn
      obtain ⟨hmem, hhas⟩ := hM n hn
      obtain ⟨v, hv⟩ := Option.isSome_iff_exists.mp hhas
      have hvalue : valueOf values n = v := by rw [valueOf, hv]; rfl
      rw [hvalue]
      exact ⟨hnames n hmem, hasValue_stored hv⟩
    have hsource := replaceEach_source hstored fun K _ => hfilled K
    rwa [source_slots] at hsource
  cases hfind : (slots line).names.find? fun n => !values.has ('$' :: n) with
  | none =>
    have hall : ∀ n ∈ (slots line).names, values.has ('$' :: n) = true := by
      intro n hn
      simpa using List.find?_eq_none.mp hfind n hn
    refine Reference.resolve_of_replaceEach ?_ (hmark hall)
    rw [Reference.withoutIgnored, List.foldl_nil, all_eq_names, hrun _ fun n hn => ⟨hn, hall n hn⟩, source_fillIn fun n hn => hn]
  | some n =>
    obtain ⟨hn, before, after, hcut, hbefore⟩ := List.find?_eq_some_iff_append.mp hfind
    have hstart := hrun before fun m hm => ⟨by rw [hcut]; exact List.mem_append_left _ hm,
      by simpa using hbefore m hm⟩
    have hnone : Table.get? values.stored ('$' :: n) = none := by
      rw [Variables.get?_stored]
      simpa [Table.has] using hn
    rw [Reference.resolve, Reference.withoutIgnored, List.foldl_nil, all_eq_names, hcut, List.map_append,
      Reference.replaceEach_append, hstart]
    change (Reference.replaceEach values.stored (('$' :: n) :: after.map ('$' :: ·)) _ >>= _) = _
    rw [Reference.replaceEach, List.foldlM_cons, hnone]
    rfl

/-- One name starts the other, a value ends in a backslash and the other is empty, and a reference is
escaped; and in another line the second of three references has no value. -/
theorem resolve_stored_eq_fill_sample :
    Reference.resolve (Variables.stored [("$a", "x\\"), ("$ab", [])])
        "$ab,$a;\\$a $ab" [] = .ok ",x\\;\\$a " ∧
      Reference.resolve (Variables.stored [("$a", "x\\"), ("$ab", [])])
        "$a,$c,$d" [] = .error (.rejected (.undefinedVariable "$c")) := by
  constructor
  · exact resolve_stored_eq_fill [("$a", "x\\"), ("$ab", [])]
      "$ab,$a;\\$a $ab" (by decide) (by decide) fun _ => by decide
  · exact resolve_stored_eq_fill [("$a", "x\\"), ("$ab", [])]
      "$a,$c,$d" (by decide) (by decide) fun _ => by decide

end Template
end OutlineMarkup
