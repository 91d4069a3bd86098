import OutlineMarkup.Proofs.Forests

/-!
# Attributes between commas and spaces

The attributes of an element may be separated by commas or by spaces alone. What stands between two
commas is one attribute to the reader: it is checked by the name that it starts with, and printed as a
whole. Main statement: which lines with attributes a strict tag accepts, and which of them print only
attributes that the tag allows.
-/

namespace OutlineMarkup
open List Text Markup Attributes

/-- Attributes in parentheses: the first one, and the others with the commas and spaces before them. -/
structure AttributeRow where
  first : Text × Text
  more : List (Text × Text × Text)
  deriving Repr, DecidableEq

namespace AttributeRow

def writtenMore (more : List (Text × Text × Text)) : Text :=
  more.flatMap fun (gap, a) => gap ++ Markup.attributeText a

def written (r : AttributeRow) : Text := Markup.attributeText r.first ++ writtenMore r.more

/-- As they are printed, a comma with the spaces around it becomes one space. -/
def printedMore (more : List (Text × Text × Text)) : Text :=
  more.flatMap fun (gap, a) => (if gap.hasChar ',' then [' '] else gap) ++ Markup.attributeText a

def printed (r : AttributeRow) : Text := Markup.attributeText r.first ++ printedMore r.more

def names (r : AttributeRow) : List Text := r.first.1 :: r.more.map (·.2.1)

/-- The names that stand first or after a comma. -/
def leaders (r : AttributeRow) : List Text :=
  r.first.1 :: (r.more.filter (·.1.hasChar ',')).map (·.2.1)

/-- The names that stand after spaces alone. -/
def followers (r : AttributeRow) : List Text := (r.more.filter (!·.1.hasChar ',')).map (·.2.1)

def isGap (gap : Text) : Bool := !gap.isEmpty && gap.all fun c => c == ',' || c == ' '

def isItem (a : Text × Text) : Bool := a.1.isAlphanumeric && a.2.all Char.isAlphanum

def isFormed (r : AttributeRow) : Bool :=
  isItem r.first && r.more.all fun (gap, a) => isGap gap && isItem a

/-- No two commas stand between two attributes. -/
def isSingle (r : AttributeRow) : Bool := r.more.all fun (gap, _) => gap.count ',' ≤ 1

end AttributeRow

/-- The words before the equals signs of a tag. -/
def attributeNames (tag : Text) : List Text :=
  (tag.splitAtChar '=').dropLast.map fun s => (s.reverse.takeWhile Char.isAlphanum).reverse

/-- A word character first, and no sign that has a meaning in a line. -/
def isElementName (n : Text) : Bool :=
  n.head?.any Text.isWordChar && n.all fun c =>
    !Text.isBlank c && !List.contains ['(', ')', '[', ']', '.', '\\', '$', '=', ':'] c

theorem isElementName_iff {n : Text} : isElementName n ↔
    (∃ c, n.head? = some c ∧ isWordChar c) ∧ ∀ c ∈ n, isBlank c = false ∧
      c ∉ ['(', ')', '[', ']', '.', '\\', '$', '=', ':'] := by
  simp [isElementName, Option.any_eq_true]

/-! ## Reading a row -/

namespace Attributes

theorem collect_blank {r : Text} (h : r.trim = []) (buffer : Text) (rs : List Text) :
    collect {} buffer (r :: rs) = .error .outOfRange := by
  simp only [collect, h]
  rfl

end Attributes

namespace AttributeRow
variable {name g t : Text} {a : Text × Text} {gap : Text} {more : List (Text × Text × Text)}

/-- Attributes with spaces between them, the first one under the given name. -/
structure IsGroup (name g : Text) : Prop where
  formed : name.isAlphanumeric = true
  body : ∃ w : Text, g = name ++ '=' :: '"' :: (w ++ ['"']) ∧
    (∀ c ∈ w, c.isAlphanum = true ∨ c = ' ' ∨ c = '=' ∨ c = '"') ∧ w.count '"' % 2 = 0

theorem isItem_iff : isItem a ↔ a.1.isAlphanumeric ∧ ∀ c ∈ a.2, c.isAlphanum := by
  rw [isItem, Bool.and_eq_true, all_eq_true]

theorem isGap_iff : isGap gap ↔ gap ≠ [] ∧ ∀ c ∈ gap, c = ',' ∨ c = ' ' := by
  simp [isGap, all_eq_true]

theorem isGroup_item (ha : isItem a) : IsGroup a.1 (attributeText a) := by
  obtain ⟨hname, hvalue⟩ := isItem_iff.mp ha
  refine ⟨hname, a.2, attributeText_eq _ _, fun c hc => .inl (hvalue c hc), ?_⟩
  rw [count_eq_zero.mpr (not_mem_of_all hvalue (by decide))]

namespace IsGroup
variable (h : IsGroup name g)
include h

theorem append (hgap : ∀ c ∈ gap, c = ' ') (ha : isItem a) :
    IsGroup name (g ++ gap ++ attributeText a) := by
  obtain ⟨w, rfl, hw, hcount⟩ := h.body
  obtain ⟨hname, hvalue⟩ := isItem_iff.mp ha
  obtain ⟨_, halpha⟩ := (isAlphanumeric_iff _).mp hname
  refine ⟨h.formed, w ++ '"' :: (gap ++ (a.1 ++ '=' :: '"' :: a.2)), ?_, ?_, ?_⟩
  · rw [attributeText_eq]
    simp
  · intro c hc
    simp only [mem_append, mem_cons] at hc
    rcases hc with hc | rfl | hc | hc | rfl | rfl | hc
    · exact hw c hc
    · exact .inr (.inr (.inr rfl))
    · exact .inr (.inl (hgap c hc))
    · exact .inl (halpha c hc)
    · exact .inr (.inr (.inl rfl))
    · exact .inr (.inr (.inr rfl))
    · exact .inl (hvalue c hc)
  · have h₁ : gap.count '"' = 0 := count_eq_zero.mpr fun hm => absurd (hgap _ hm) (by decide)
    have h₂ : a.1.count '"' = 0 := count_eq_zero.mpr (not_mem_of_all halpha (by decide))
    have h₃ : a.2.count '"' = 0 := count_eq_zero.mpr (not_mem_of_all hvalue (by decide))
    simp only [count_append, count_cons, h₁, h₂, h₃, beq_iff_eq]
    simp only [if_true, if_false, Char.reduceEq]
    omega

theorem chars {c : Char} (hc : c ∈ g) : c.isAlphanum ∨ c = ' ' ∨ c = '=' ∨ c = '"' := by
  obtain ⟨w, rfl, hw, _⟩ := h.body
  obtain ⟨_, halpha⟩ := (isAlphanumeric_iff _).mp h.formed
  simp only [mem_append, mem_cons, not_mem_nil, or_false] at hc
  rcases hc with hc | hc | hc | hc | hc
  · exact .inl (halpha c hc)
  · exact .inr (.inr (.inl hc))
  · exact .inr (.inr (.inr hc))
  · exact hw c hc
  · exact .inr (.inr (.inr hc))

theorem not_mem {c : Char} (ha : c.isAlphanum = false) (hs : c ≠ ' ')
    (he : c ≠ '=') (hq : c ≠ '"') : c ∉ g := by
  intro hc
  rcases h.chars hc with hc | hc | hc | hc
  · rw [ha] at hc
    cases hc
  · exact hs hc
  · exact he hc
  · exact hq hc

theorem ne_nil : g ≠ [] := by
  obtain ⟨w, rfl, _⟩ := h.body
  simp

theorem before_equals : g.before "=" = name := by
  obtain ⟨w, rfl, _⟩ := h.body
  obtain ⟨_, halpha⟩ := (isAlphanumeric_iff _).mp h.formed
  exact before_append_cons (not_mem_of_all halpha (by decide))

theorem simple : Simple g := by
  obtain ⟨w, rfl, hw, hcount⟩ := h.body
  refine simple_quoted h.formed (fun d hd => ?_) hcount
  refine ⟨?_, ?_, ?_, ?_, ?_, ?_⟩ <;> rintro rfl <;> exact absurd (hw _ hd) (by decide)

end IsGroup

/-- The texts between the commas of a row, of which `g` has been read. -/
def groupsFrom (g : Text) : List (Text × Text × Text) → List Text
  | [] => [g]
  | (gap, a) :: rest =>
    if gap.hasChar ',' then g :: groupsFrom (Markup.attributeText a) rest
    else groupsFrom (g ++ gap ++ Markup.attributeText a) rest

theorem groupsFrom_spaced (h : gap.hasChar ',' = false) (g : Text) (a : Text × Text) :
    groupsFrom g ((gap, a) :: more) = groupsFrom (g ++ gap ++ attributeText a) more := by
  rw [groupsFrom, if_neg (by rw [h]; decide)]

theorem groupsFrom_parted (h : gap.hasChar ',') (g : Text) (a : Text × Text) :
    groupsFrom g ((gap, a) :: more) = g :: groupsFrom (attributeText a) more := by
  rw [groupsFrom, if_pos h]

theorem eq_space_of_hasChar (h : ∀ c ∈ gap, c = ',' ∨ c = ' ') (hcomma : gap.hasChar ',' = false) :
    ∀ c ∈ gap, c = ' ' := fun c hc =>
  (h c hc).resolve_left fun he => (hasChar_eq_false_iff _ _).mp hcomma (he ▸ hc)

theorem cut_gap (h : ∀ c ∈ gap, c = ',' ∨ c = ' ') (hcomma : gap.hasChar ',') :
    ∃ s t : Text, gap = s ++ ',' :: t ∧ (∀ c ∈ s, c = ' ') ∧ ∀ c ∈ t, c = ',' ∨ c = ' ' := by
  obtain ⟨s, t, rfl, hs⟩ := eq_append_cons_of_mem ((hasChar_iff _ _).mp hcomma)
  refine ⟨s, t, rfl, fun c hc => ?_, fun c hc => h c (by simp [hc])⟩
  rcases h c (by simp [hc]) with rfl | rfl
  · exact absurd hc hs
  · rfl

variable {x b : Text} {c : Char}

theorem IsGroup.comma (h : IsGroup name g) : ',' ∉ g :=
  h.not_mem (by decide) (by decide) (by decide) (by decide)

theorem IsGroup.trim_spaced (hg : IsGroup name g) (hb : ∀ c ∈ b, c = ' ')
    (ht : ∀ c ∈ t, c = ' ') : (b ++ g ++ t).trim = g := by
  rw [append_assoc]
  exact trim_append_solid (fun c hc => by rw [hb c hc]; rfl) (fun c hc => by rw [ht c hc]; rfl)
    hg.simple.solid

theorem trim_spaces (hb : ∀ c ∈ b, c = ' ') : b.trim = [] := by
  have hblank : ∀ c ∈ b, isBlank c := fun c hc => by rw [hb c hc]; rfl
  have h := trim_append_blank hblank []
  rwa [nil_append] at h

theorem IsGroup.collect_comma (hg : IsGroup name g) (hb : ∀ c ∈ b, c = ' ')
    (ht : ∀ c ∈ t, c = ' ') (buffer rest : Text) :
    collect {} buffer (splitAtChar (b ++ g ++ t ++ ',' :: rest) ',') =
      (collect {} g (splitAtChar rest ',')).map (g :: ·) := by
  have htrim := hg.trim_spaced hb ht
  have hfree : ',' ∉ b ++ g ++ t := by
    simp only [mem_append, not_or]
    exact ⟨⟨comma_not_mem_spaces hb, hg.comma⟩, comma_not_mem_spaces ht⟩
  have hwhole : Whole (b ++ g ++ t).trim := by
    rw [htrim]
    exact hg.simple.whole
  rw [splitAtChar_append_cons hfree, collect_piece hwhole.solid hwhole.after, htrim]

/-- A row is collected group by group, and fails where two commas stand between two attributes. -/
theorem IsGroup.collect_row (hg : IsGroup name g) (hb : ∀ c ∈ b, c = ' ')
    (hmore : ∀ x ∈ more, isGap x.1 ∧ isItem x.2) (buffer : Text) :
    collect {} buffer (splitAtChar (b ++ g ++ writtenMore more) ',') =
      if more.all (·.1.count ',' ≤ 1) then .ok (groupsFrom g more) else .error .outOfRange := by
  induction more generalizing b g name buffer with
  | nil =>
    have htrim : (b ++ g).trim = g := by
      have h := hg.trim_spaced (t := []) hb fun c hc => absurd hc not_mem_nil
      rwa [append_nil] at h
    have hwhole : Whole (b ++ g).trim := by
      rw [htrim]
      exact hg.simple.whole
    have hcut : splitAtChar (b ++ g ++ writtenMore []) ',' = [b ++ g] := by
      rw [writtenMore, flatMap_nil, append_nil]
      refine pieces_of_forall_not fun c hc => beq_eq_false_iff_ne.mpr ?_
      rintro rfl
      exact (mem_append.mp hc).elim (comma_not_mem_spaces hb) hg.comma
    rw [hcut, collect_piece hwhole.solid hwhole.after, htrim]
    rfl
  | cons x more ih =>
    obtain ⟨gap, a⟩ := x
    obtain ⟨hgap, ha⟩ := hmore _ mem_cons_self
    have hrest : ∀ x ∈ more, isGap x.1 ∧ isItem x.2 := (forall_mem_cons.mp hmore).2
    have hsigns := (isGap_iff.mp hgap).2
    have hwritten : writtenMore ((gap, a) :: more) = gap ++ (attributeText a ++ writtenMore more) := by
      simp [writtenMore]
    cases hcomma : gap.hasChar ',' with
    | false =>
      have hspaces := eq_space_of_hasChar hsigns hcomma
      have hnone : gap.count ',' = 0 := count_eq_zero.mpr (comma_not_mem_spaces hspaces)
      have htext : b ++ g ++ writtenMore ((gap, a) :: more) =
          b ++ (g ++ gap ++ attributeText a) ++ writtenMore more := by
        rw [hwritten]
        simp
      rw [htext, ih (hg.append hspaces ha) hb hrest buffer, groupsFrom_spaced hcomma, all_cons, hnone]
      rfl
    | true =>
      obtain ⟨s, t, rfl, hs, ht⟩ := cut_gap hsigns hcomma
      have hcount : (s ++ ',' :: t).count ',' = t.count ',' + 1 := by
        rw [count_append, count_eq_zero.mpr (comma_not_mem_spaces hs), count_cons_self, Nat.zero_add]
      have htext : b ++ g ++ writtenMore ((s ++ ',' :: t, a) :: more) =
          b ++ g ++ s ++ ',' :: (t ++ attributeText a ++ writtenMore more) := by
        rw [hwritten]
        simp
      rw [htext, hg.collect_comma hb hs, groupsFrom_parted hcomma, all_cons, hcount]
      cases hagain : hasChar t ',' with
      | false =>
        have hspaces := eq_space_of_hasChar ht hagain
        rw [ih (isGroup_item ha) hspaces hrest g, count_eq_zero.mpr (comma_not_mem_spaces hspaces)]
        change Except.map _ (if more.all _ then _ else _) = if more.all _ then _ else _
        split <;> rfl
      | true =>
        obtain ⟨s', t', rfl, hs', _⟩ := cut_gap ht hagain
        have htext' : s' ++ ',' :: t' ++ attributeText a ++ writtenMore more =
            s' ++ ',' :: (t' ++ (attributeText a ++ writtenMore more)) := by simp
        have hmany : ¬ (s' ++ ',' :: t').count ',' + 1 ≤ 1 := by
          rw [count_append, count_cons_self]
          omega
        rw [htext', splitAtChar_append_cons (comma_not_mem_spaces hs'), collect_blank (trim_spaces hs')]
        rw [decide_eq_false hmany]
        rfl

theorem IsGroup.forall₂_groupsFrom (hg : IsGroup name g) (hmore : ∀ x ∈ more, isGap x.1 ∧ isItem x.2) :
    Forall₂ IsGroup (name :: (more.filter (·.1.hasChar ',')).map (·.2.1)) (groupsFrom g more) := by
  induction more generalizing g name with
  | nil => exact .cons hg .nil
  | cons x more ih =>
    obtain ⟨gap, a⟩ := x
    obtain ⟨hgap, ha⟩ := hmore _ mem_cons_self
    have hrest : ∀ x ∈ more, isGap x.1 ∧ isItem x.2 := (forall_mem_cons.mp hmore).2
    cases hcomma : gap.hasChar ',' with
    | false =>
      rw [groupsFrom_spaced hcomma, filter_cons_of_neg (by rw [hcomma]; decide)]
      exact ih (hg.append (eq_space_of_hasChar (isGap_iff.mp hgap).2 hcomma) ha) hrest
    | true =>
      rw [groupsFrom_parted hcomma, filter_cons_of_pos (p := fun x : Text × Text × Text => x.1.hasChar ',') hcomma]
      exact .cons hg (ih (isGroup_item ha) hrest)

theorem flatMap_groupsFrom (g : Text) (more : List (Text × Text × Text)) :
    (groupsFrom g more).flatMap (' ' :: ·) = ' ' :: (g ++ printedMore more) := by
  induction more generalizing g with
  | nil => simp [groupsFrom, printedMore]
  | cons x more ih =>
    obtain ⟨gap, a⟩ := x
    cases hcomma : gap.hasChar ',' with
    | false =>
      rw [groupsFrom_spaced hcomma, ih]
      simp [printedMore, hcomma]
    | true =>
      rw [groupsFrom_parted hcomma, flatMap_cons, ih]
      simp [printedMore, hcomma]

variable {r : AttributeRow} {n : Text}

def groups (r : AttributeRow) : List Text := groupsFrom (Markup.attributeText r.first) r.more

theorem isFormed_iff : r.isFormed ↔ isItem r.first ∧ ∀ x ∈ r.more, isGap x.1 ∧ isItem x.2 := by
  simp [isFormed]

def line (n : Text) (r : AttributeRow) : Text := n ++ '(' :: (r.written ++ "):")

def startTag (n : Text) (r : AttributeRow) : Text := '<' :: n ++ ' ' :: r.printed ++ ['>']

theorem forall₂_groups (hr : r.isFormed) : Forall₂ IsGroup r.leaders r.groups := by
  obtain ⟨hfirst, hmore⟩ := isFormed_iff.mp hr
  exact (isGroup_item hfirst).forall₂_groupsFrom hmore

theorem mem_writtenMore (hmore : ∀ x ∈ more, isGap x.1 ∧ isItem x.2) (hc : c ∈ writtenMore more) :
    c.isAlphanum ∨ c = ' ' ∨ c = '=' ∨ c = '"' ∨ c = ',' := by
  obtain ⟨⟨gap, a⟩, hx, hc⟩ := mem_flatMap.mp hc
  obtain ⟨hgap, ha⟩ := hmore _ hx
  rcases mem_append.mp hc with hc | hc
  · rcases (isGap_iff.mp hgap).2 c hc with rfl | rfl <;> simp
  · rcases (isGroup_item ha).chars hc with hc | hc | hc | hc <;> simp [hc]

theorem mem_written (hr : r.isFormed) (hc : c ∈ r.written) :
    c.isAlphanum ∨ c = ' ' ∨ c = '=' ∨ c = '"' ∨ c = ',' := by
  obtain ⟨hfirst, hmore⟩ := isFormed_iff.mp hr
  rcases mem_append.mp hc with hc | hc
  · rcases (isGroup_item hfirst).chars hc with hc | hc | hc | hc <;> simp [hc]
  · exact mem_writtenMore hmore hc

theorem not_mem_written (hr : r.isFormed) (ha : c.isAlphanum = false)
    (hc : c ∉ [' ', '=', '"', ',']) : c ∉ r.written := by
  intro hm
  have h := mem_written hr hm
  rw [ha] at h
  simp only [mem_cons, not_mem_nil, or_false, not_or] at hc
  simp_all

theorem solid_line (hn : isElementName n) (r : AttributeRow) : Solid (line n r) := by
  obtain ⟨⟨c, hc, hword⟩, _⟩ := isElementName_iff.mp hn
  refine ⟨⟨c, ?_, isBlank_eq_false_of_isWordChar hword⟩, ':', ?_, rfl⟩
  · obtain ⟨s, rfl⟩ := head?_eq_some_iff.mp hc
    rfl
  · have hlast : line n r = (n ++ '(' :: (r.written ++ [')'])) ++ [':'] := by simp [line]
    rw [hlast, getLast?_concat]

theorem before_line (hn : isElementName n) (r : AttributeRow) : (line n r).before "(" = n :=
  before_append_cons fun hm => ((isElementName_iff.mp hn).2 _ hm).2 (by decide)

theorem read_line (hn : isElementName n) (hr : r.isFormed) : Definition.read (line n r) =
      if r.isSingle then .ok ⟨n, r.groups⟩ else .error .outOfRange := by
  obtain ⟨hhead, hchars⟩ := isElementName_iff.mp hn
  obtain ⟨hfirst, hmore⟩ := isFormed_iff.mp hr
  have hparen : '(' ∉ n := fun hm => (hchars _ hm).2 (by decide)
  have hsolid := solid_line hn r
  have hname := before_line hn r
  have hsolidname : n.trimRight = n := by
    have hne : n ≠ [] := by
      rintro rfl
      obtain ⟨c, hc, _⟩ := hhead
      cases hc
    exact (solid_of_forall hne fun c hc => (hchars c hc).1).trimRight_eq
  have hopen : (line n r).hasChar '(' := (hasChar_iff _ _).mpr (by simp [line])
  have hinside : Attributes.inParentheses? (line n r) = some r.written :=
    Attributes.inParentheses?_append hparen (not_mem_written hr (by decide) (by decide)) (by decide)
      (by decide)
  have hcollect := (isGroup_item hfirst).collect_row (b := []) (fun c hc => absurd hc not_mem_nil)
    hmore []
  have hgroups := forall₂_groups hr
  have hunchanged : (r.groups).mapM (fun a => do
      return Attributes.unquoteName (← Attributes.expand a)) = Except.ok (r.groups) := by
    refine mapM_eq_ok_self fun g hg => ?_
    obtain ⟨name, _, hname⟩ := exists_of_forall₂ hgroups hg
    have hwhole := hname.simple.whole
    rw [hwhole.expand]
    exact congrArg Except.ok hwhole.unquoteName
  have hread : Attributes.read (line n r) = if r.isSingle then .ok (r.groups) else .error .outOfRange := by
    obtain ⟨c, w, hw⟩ := exists_cons_of_ne_nil (l := r.written) (by
      intro h
      exact (isGroup_item hfirst).ne_nil (append_eq_nil_iff.mp h).1)
    rw [Attributes.read, hinside, hw]
    simp only
    rw [← hw]
    have hwritten : r.written = [] ++ attributeText r.first ++ writtenMore r.more := rfl
    rw [hwritten, hcollect]
    change _ = if r.more.all (·.1.count ',' ≤ 1) then _ else _
    split
    · exact hunchanged
    · rfl
  rw [Definition.read, hsolid.trim_eq, if_pos hopen, hread, hname, hsolidname]
  split <;> rfl

/-! ## Lines with a row -/

theorem calmItem_item (ha : isItem a) : CalmItem (attributeText a) := by
  obtain ⟨hname, hvalue⟩ := isItem_iff.mp ha
  exact calmItem_attributeText hname (all_eq_true.mpr fun c hc => by
    simp [isValueChar, isPlainChar, hvalue c hc])

theorem equals_writtenMore (hmore : ∀ x ∈ more, isGap x.1 ∧ isItem x.2) :
    EqualsAfterWord (writtenMore more) ∧ (writtenMore more).head? ≠ some '=' := by
  induction more with
  | nil => exact ⟨.nil, by simp [writtenMore]⟩
  | cons x more ih =>
    obtain ⟨gap, a⟩ := x
    obtain ⟨hgap, ha⟩ := hmore _ mem_cons_self
    obtain ⟨hne, hsigns⟩ := isGap_iff.mp hgap
    obtain ⟨hrest, hhead⟩ := ih (forall_mem_cons.mp hmore).2
    have hcalm := calmItem_item ha
    have hequals : '=' ∉ gap := fun hm => by
      rcases hsigns _ hm with h | h <;> exact absurd h (by decide)
    have hwritten : writtenMore ((gap, a) :: more) = gap ++ (attributeText a ++ writtenMore more) := by
      simp [writtenMore]
    rw [hwritten]
    refine ⟨(equalsAfterWord_of_not_mem hequals).append (hcalm.equals.append hrest hhead) ?_, ?_⟩
    · rw [head?_append_of_ne_nil _ hcalm.simple.solid.ne_nil]
      exact hcalm.start
    · rw [head?_append_of_ne_nil _ hne]
      exact fun hm => hequals (mem_of_mem_head? hm)

theorem equals_written (hr : r.isFormed) : EqualsAfterWord r.written ∧ r.written.head? ≠ some '=' := by
  obtain ⟨hfirst, hmore⟩ := isFormed_iff.mp hr
  obtain ⟨hrest, hhead⟩ := equals_writtenMore hmore
  have hcalm := calmItem_item hfirst
  refine ⟨hcalm.equals.append hrest hhead, ?_⟩
  rw [written, head?_append_of_ne_nil _ hcalm.simple.solid.ne_nil]
  exact hcalm.start

theorem mem_line (hn : isElementName n) (hr : r.isFormed) (hc : c ∈ line n r) :
    c ≠ '[' ∧ c ≠ ']' ∧ c ≠ '.' ∧ c ≠ '\n' ∧ c ≠ '\\' ∧ c ≠ '$' := by
  obtain ⟨_, hchars⟩ := isElementName_iff.mp hn
  rw [line] at hc
  simp only [mem_append, mem_cons] at hc
  rcases hc with hc | rfl | hc | hc
  · obtain ⟨hblank, hsigns⟩ := hchars c hc
    refine ⟨?_, ?_, ?_, ?_, ?_, ?_⟩ <;> rintro rfl
    · exact hsigns (by decide)
    · exact hsigns (by decide)
    · exact hsigns (by decide)
    · exact absurd hblank (by decide)
    · exact hsigns (by decide)
    · exact hsigns (by decide)
  · decide
  · refine ⟨?_, ?_, ?_, ?_, ?_, ?_⟩ <;> rintro rfl <;>
      exact not_mem_written hr (by decide) (by decide) hc
  · revert c
    decide

theorem calm_line (hn : isElementName n) (hr : r.isFormed)
    (hun : isUnreserved (line n r)) : Calm (line n r) := by
  obtain ⟨⟨c, hc, hword⟩, hchars⟩ := isElementName_iff.mp hn
  obtain ⟨hequals, hhead⟩ := equals_written hr
  have hsign : ∀ d : Char, d ∈ ['(', ')', '[', ']', '.', '\\', '$', '=', ':'] → d ∉ n :=
    fun d hd hm => (hchars d hm).2 hd
  have hne : n ≠ [] := by
    rintro rfl
    cases hc
  refine ⟨⟨⟨c, ?_, .inl hword⟩, (solid_line hn r).last, fun hspace => ?_, fun d hd => ?_, ?_⟩, hun, ?_⟩
  · rw [line, head?_append_of_ne_nil _ hne, hc]
  · rcases head?_dropWhile_append_cons (a := n) (c := '(') rfl ' ' hspace with h | h
    · exact absurd (hchars _ h).1 (by decide)
    · exact absurd h (by decide)
  · obtain ⟨h₁, h₂, h₃, h₄, h₅, _⟩ := mem_line hn hr hd
    exact ⟨h₁, h₂, h₃, h₄, h₅⟩
  · have hname : EqualsAfterWord n := equalsAfterWord_of_not_mem (hsign _ (by decide))
    have hend : EqualsAfterWord "):" := equalsAfterWord_of_not_mem (by decide)
    have hinside : EqualsAfterWord (['('] ++ (r.written ++ "):")) := by
      refine (equalsAfterWord_of_not_mem (by decide)).append (hequals.append hend (by decide)) ?_
      cases hw : r.written with
      | nil => decide
      | cons d w =>
        rw [hw] at hhead
        simpa using hhead
    exact hname.append hinside (by simp)
  · have hcount : ∀ d : Char, d = '(' ∨ d = ')' → n.count d = 0 ∧ r.written.count d = 0 := by
      rintro d (rfl | rfl) <;>
        exact ⟨count_eq_zero.mpr (hsign _ (by decide)),
          count_eq_zero.mpr (not_mem_written hr (by decide) (by decide))⟩
    obtain ⟨h₁, h₂⟩ := hcount '(' (.inl rfl)
    obtain ⟨h₃, h₄⟩ := hcount ')' (.inr rfl)
    simp [line, h₁, h₂, h₃, h₄]

/-! ## Start tags -/

theorem piece_name (hx : '=' ∉ x) (hc : x.getLast? = some c) (hword : c.isAlphanum = false) (ha : isItem a) :
    '=' ∉ x ++ a.1 ∧ ((x ++ a.1).reverse.takeWhile Char.isAlphanum).reverse = a.1 := by
  obtain ⟨_, halpha⟩ := (isAlphanumeric_iff _).mp (isItem_iff.mp ha).1
  constructor
  · exact fun hm => (mem_append.mp hm).elim hx (not_mem_of_all halpha (by decide))
  · obtain ⟨y, rfl⟩ := getLast?_eq_some_iff.mp hc
    have hall : ∀ d ∈ a.1.reverse, d.isAlphanum := fun d hd => halpha d (mem_reverse.mp hd)
    have hstop : (y ++ [c]).reverse.takeWhile Char.isAlphanum = [] := by
      rw [reverse_concat, takeWhile_cons_of_neg (by rw [hword]; decide)]
    rw [reverse_append, takeWhile_append_of_pos hall, hstop, append_nil, reverse_reverse]

theorem exists_printed_gap (h : isGap gap) :
    ∃ s : Text, (if gap.hasChar ',' then [' '] else gap) = s ++ [' '] ∧ ∀ c ∈ s, c = ' ' := by
  obtain ⟨hne, hsigns⟩ := isGap_iff.mp h
  cases hcomma : gap.hasChar ',' with
  | true => exact ⟨[], rfl, fun c hc => absurd hc not_mem_nil⟩
  | false =>
    have hspaces := eq_space_of_hasChar hsigns hcomma
    refine ⟨gap.dropLast, ?_, fun c hc => hspaces c (mem_of_mem_dropLast hc)⟩
    have hlast := hspaces _ (getLast_mem hne)
    conv_lhs => rw [← dropLast_append_getLast hne]
    rw [hlast]
    rfl

theorem attributeNames_append (hx : '=' ∉ x) (hc : x.getLast? = some c)
    (hword : c.isAlphanum = false) (ha : isItem a) (hmore : ∀ y ∈ more, isGap y.1 ∧ isItem y.2) :
    attributeNames (x ++ attributeText a ++ printedMore more ++ ['>']) = a.1 :: more.map (·.2.1) := by
  induction more generalizing x a c with
  | nil =>
    obtain ⟨hpiece, hname⟩ := piece_name hx hc hword ha
    obtain ⟨_, hvalue⟩ := isItem_iff.mp ha
    have hcut : x ++ attributeText a ++ printedMore [] ++ ['>'] =
        x ++ a.1 ++ '=' :: ('"' :: (a.2 ++ "\">")) := by
      rw [attributeText_eq]
      simp [printedMore]
    have hlast : '=' ∉ '"' :: (a.2 ++ "\">") := by
      simpa using not_mem_of_all hvalue (d := '=') (by decide)
    rw [hcut, attributeNames, splitAtChar_append_cons hpiece, splitAtChar_of_not_mem hlast]
    simp only [dropLast_cons_cons, dropLast_singleton, map_cons, map_nil, hname]
  | cons y more ih =>
    obtain ⟨gap, b⟩ := y
    obtain ⟨hgap, hb⟩ := hmore _ mem_cons_self
    obtain ⟨hpiece, hname⟩ := piece_name hx hc hword ha
    obtain ⟨_, hvalue⟩ := isItem_iff.mp ha
    obtain ⟨s, hs, hspaces⟩ := exists_printed_gap hgap
    have hcut : x ++ attributeText a ++ printedMore ((gap, b) :: more) ++ ['>'] =
        x ++ a.1 ++ '=' :: ('"' :: (a.2 ++ '"' :: (s ++ [' '])) ++ attributeText b ++
          printedMore more ++ ['>']) := by
      have hprinted : printedMore ((gap, b) :: more) = s ++ [' '] ++ attributeText b ++ printedMore more := by
        rw [← hs]
        rfl
      rw [attributeText_eq, hprinted]
      simp
    have hnext : '=' ∉ '"' :: (a.2 ++ '"' :: (s ++ [' '])) := by
      have hequals : '=' ∉ s := fun hm => absurd (hspaces _ hm) (by decide)
      simpa [hequals] using not_mem_of_all hvalue (d := '=') (by decide)
    have hlast : ('"' :: (a.2 ++ '"' :: (s ++ [' ']))).getLast? = some ' ' := by
      have hsnoc : '"' :: (a.2 ++ '"' :: (s ++ [' '])) = ('"' :: (a.2 ++ '"' :: s)) ++ [' '] := by simp
      rw [hsnoc, getLast?_concat]
    have hrest := ih hnext hlast (by decide) hb (forall_mem_cons.mp hmore).2
    rw [hcut, attributeNames, splitAtChar_append_cons hpiece, splitAtChar,
      dropLast_cons_of_ne_nil (pieces_ne_nil _ _), map_cons, hname]
    exact congrArg _ hrest

theorem attributeNames_startTag (hn : isElementName n) (hr : r.isFormed) :
    attributeNames (startTag n r) = r.names := by
  obtain ⟨hfirst, hmore⟩ := isFormed_iff.mp hr
  have hequals : '=' ∉ '<' :: n ++ [' '] := by
    intro hm
    simp only [cons_append, mem_cons, mem_append, not_mem_nil, or_false] at hm
    rcases hm with hm | hm | hm
    · exact absurd hm (by decide)
    · exact ((isElementName_iff.mp hn).2 _ hm).2 (by decide)
    · exact absurd hm (by decide)
  have hlast : ('<' :: n ++ [' ']).getLast? = some ' ' := getLast?_concat
  have hnames := attributeNames_append hequals hlast (by decide) hfirst hmore
  have htag : startTag n r = '<' :: n ++ [' '] ++ attributeText r.first ++ printedMore r.more ++ ['>'] := by
    simp [startTag, printed]
  rw [htag, hnames, names]

theorem tags_groups (hr : r.isFormed) (n : Text) :
    (Definition.tags ⟨n, r.groups⟩).1 = startTag n r ++ ['\n'] := by
  obtain ⟨hfirst, hmore⟩ := isFormed_iff.mp hr
  have hgroups := forall₂_groups hr
  have hne : ∀ g ∈ r.groups, g ≠ [] := fun g hg => by
    obtain ⟨name, _, h⟩ := exists_of_forall₂ hgroups hg
    exact h.ne_nil
  rw [Forest.tags_opening n _ hne, groups, flatMap_groupsFrom]
  simp [startTag, printed]

theorem backslash_not_mem (hn : isElementName n) (hr : r.isFormed) {u : Text}
    (hu : isUnit u) {k : Nat} : '\\' ∉ u.times k ++ (startTag n r ++ ['\n']) := by
  have hprinted : '\\' ∉ ' ' :: r.printed := by
    rw [printed, ← flatMap_groupsFrom]
    intro hm
    obtain ⟨g, hg, hm⟩ := mem_flatMap.mp hm
    obtain ⟨name, _, hgroup⟩ := exists_of_forall₂ (forall₂_groups hr) hg
    rcases mem_cons.mp hm with h | h
    · exact absurd h (by decide)
    · exact hgroup.not_mem (by decide) (by decide) (by decide) (by decide) h
  have hname : '\\' ∉ n := fun hm => ((isElementName_iff.mp hn).2 _ hm).2 (by decide)
  have hspace : '\\' ∉ u.times k := not_mem_times hu rfl
  simp only [startTag, mem_append, cons_append, mem_cons, not_mem_nil, or_false, not_or]
    at hprinted ⊢
  exact ⟨hspace, by decide, ⟨⟨hname, hprinted⟩, by decide⟩, by decide⟩

/-! ## Strict tags -/

theorem checkElement_groups {tags : TagTable} {rule : TagRule} {allowed : List Text}
    (hrule : Table.get? tags n = some rule) (hallowed : rule.attributes = some allowed) (hr : r.isFormed) :
    Compile.checkElement tags ⟨n, r.groups⟩ = .ok () ↔ ∀ x ∈ r.leaders, x ∈ allowed := by
  obtain ⟨hfirst, hmore⟩ := isFormed_iff.mp hr
  have hgroups := forall₂_groups hr
  have hkey : tags.key? n = some n := by
    rw [TagTable.key?, Table.has, hrule]
    rfl
  have hcheck : ∀ name g : Text, IsGroup name g → ((if allowed.contains (g.before "=") then Except.ok ()
        else .error (.rejected (.forbiddenAttribute (g.before "=") n)) : Except Fault Unit) = .ok () ↔
        name ∈ allowed) := by
    intro name g hg
    rw [hg.before_equals]
    by_cases hm : name ∈ allowed <;> simp [hm]
  simp only [Compile.checkElement, hkey, hrule, Option.bind_some, hallowed]
  rw [forM_eq_ok_iff]
  constructor
  · intro h x hx
    obtain ⟨g, hg, hgroup⟩ := exists_of_forall₂ hgroups.flip hx
    exact (hcheck x g hgroup).mp (h g hg)
  · intro h g hg
    obtain ⟨x, hx, hgroup⟩ := exists_of_forall₂ hgroups hg
    exact (hcheck x g hgroup).mpr (h x hx)

theorem forall_names_iff {p : Text → Prop} :
    (∀ x ∈ r.names, p x) ↔ (∀ x ∈ r.leaders, p x) ∧ ∀ x ∈ r.followers, p x := by
  have hmore : (∀ x ∈ r.more.map (·.2.1), p x) ↔
      (∀ x ∈ (r.more.filter (·.1.hasChar ',')).map (·.2.1), p x) ∧ ∀ x ∈ r.followers, p x := by
    simp only [followers, forall_mem_map, mem_filter, Bool.not_eq_true']
    constructor
    · exact fun h => ⟨fun x hx => h x hx.1, fun x hx => h x hx.1⟩
    · rintro ⟨hparted, hspaced⟩ x hx
      cases hcomma : x.1.hasChar ',' with
      | false => exact hspaced x ⟨hx, hcomma⟩
      | true => exact hparted x ⟨hx, hcomma⟩
  rw [names, leaders, forall_mem_cons, forall_mem_cons, hmore, and_assoc]

end AttributeRow

namespace Compile
variable {handle : Handler} {s : Session} {u n e : Text} {k : Nat} {r : AttributeRow}
  {rule : TagRule} {allowed : List Text}

theorem markupLine_read {tag : Text} (hcalm : Calm tag) (hdollar : '$' ∉ tag) (hquote : tag.head? ≠ some '"')
    (space : Text) :
    (markupLine handle k space tag).runFrom s = match Definition.read tag with
      | .ok d => (definitionLine handle k space d).runFrom s
      | .error f => (.error f, s) := by
  cases hread : Definition.read tag with
  | ok d => exact markupLine_definition ⟨hcalm, hdollar, hquote, hread⟩ space
  | error f =>
    obtain ⟨c, hc, hletter | rfl⟩ := hcalm.head
    · have hq : isQuote c = false := by
        simp only [isQuote, Bool.or_eq_false_iff, beq_eq_false_iff_ne]
        exact ⟨ne_of_class hletter (by decide), ne_of_class hletter (by decide)⟩
      simp only [markupLine, Action.runFrom_bind,
        resolve_run hdollar (hcalm.not_mem (c := '.') (by simp)) (hcalm.not_mem (c := '[') (by simp)),
        hc, hq, Bool.false_eq_true, if_false, hread, Action.runFrom_liftM]
    · exact absurd hc hquote

theorem line_row (handle : Handler) (hblock : s.block = none)
    (hkind : s.verbatims.has n = false) (hloops : s.loops = []) (hdefining : s.defining = none)
    (hfree : s.methods.get? n = none) (hn : isElementName n) (hr : r.isFormed)
    (hun : isUnreserved (r.line n)) (hu : isUnit u) (he : LineEnd e) (hreads : s.Reads u k) :
    (line handle (sourceLine u k (r.line n) e)).runFrom s = if r.isSingle then
        match checkElement s.tags ⟨n, r.groups⟩ with
        | .ok _ => (writeLine k (u.times k) (r.startTag n ++ ['\n'])
            (some (u.times k ++ (Definition.tags ⟨n, []⟩).2)) (some n)).runFrom (s.learn u k)
        | .error f => (.error f, s.learn u k)
      else (.error .outOfRange, s.learn u k) := by
  have hcalm := AttributeRow.calm_line hn hr hun
  obtain ⟨⟨c, hc, hword⟩, hchars⟩ := isElementName_iff.mp hn
  have hne : n ≠ [] := by
    rintro rfl
    cases hc
  have hhead : (r.line n).head? = some c := by rw [AttributeRow.line, head?_append_of_ne_nil _ hne, hc]
  have hname : blockName (r.line n) = n := by
    rw [blockName, AttributeRow.before_line hn]
    refine trimOf_eq_self fun d hd => beq_eq_false_iff_ne.mpr ?_
    rintro rfl
    exact (hchars _ hd).2 (by decide)
  have hdollar : '$' ∉ r.line n := fun hm => (AttributeRow.mem_line hn hr hm).2.2.2.2.2 rfl
  have hquote : (r.line n).head? ≠ some '"' := by
    rw [hhead]
    exact fun h => ne_of_class hword (by decide) (Option.some.inj h)
  rw [line_unnamed hu hreads hblock (by rwa [hname]) hcalm.solid (hcalm.head?_ne rfl (by decide)) he
    (hcalm.expand_sourceLine hu he)]
  rw [plainLine_calm (s := s.learn u k) hcalm hu he hloops hdefining, markupLine_read hcalm hdollar hquote,
    AttributeRow.read_line hn hr]
  cases hsingle : r.isSingle with
  | false => rfl
  | true =>
    change (definitionLine handle k (u.times k) ⟨n, r.groups⟩).runFrom (s.learn u k) = _
    have hfree' : (s.learn u k).methods.get? n = none := hfree
    rw [definitionLine_element hfree', AttributeRow.tags_groups hr]
    rfl

theorem writeLine_output {space opening : Text} (closing element : Text) (hspace : '\\' ∉ space ++ opening) :
    let entered := (enter k (some (some closing))).runFrom s
    let done := (writeLine k space opening (some closing) (some element)).runFrom s
    done.1 = entered.1 ∧ (done.1 = .ok () → done.2.output = entered.2.output ++ (space ++ opening)) := by
  simp only [writeLine, Action.runFrom_bind]
  rcases (enter k (some (some closing))).runFrom s with ⟨_ | _, t⟩
  · exact ⟨rfl, fun h => nomatch h⟩
  · simp only [Action.runFrom_modify, write, unescapeDollars_eq_self hspace]
    exact ⟨trivial, fun _ => by simp [Session.output]⟩

/-- A strict tag accepts a row of attributes exactly if no two commas stand between two of them and
it allows each one that stands first or after a comma, where the line may stand. The start tag then
has all of them, so that it has only allowed ones exactly if those after spaces alone are allowed
too. -/
theorem line_row_iff (handle : Text → Compile Unit) (hblock : s.block = none)
    (hkind : s.verbatims.has n = false) (hloops : s.loops = []) (hdefining : s.defining = none)
    (hfree : s.methods.get? n = none) (hn : isElementName n = true)
    (hrule : Table.get? s.tags n = some rule) (hallowed : rule.attributes = some allowed)
    (hr : r.isFormed = true) (hun : isUnreserved (r.line n) = true) (hu : isUnit u = true) (he : LineEnd e)
    (hreads : s.Reads u k) :
    let entered := (enter k (some (some (u.times k ++ (Definition.tags ⟨n, []⟩).2)))).runFrom (s.learn u k)
    let done := (line handle (sourceLine u k (r.line n) e)).runFrom s
    (done.1 = .ok () ↔ r.isSingle = true ∧ (∀ x ∈ r.leaders, x ∈ allowed) ∧ entered.1 = .ok ()) ∧
      (done.1 = .ok () →
        done.2.output = entered.2.output ++ (u.times k ++ (r.startTag n ++ ['\n'])) ∧
        attributeNames (r.startTag n) = r.names ∧
        ((∀ x ∈ attributeNames (r.startTag n), x ∈ allowed) ↔ ∀ x ∈ r.followers, x ∈ allowed)) := by
  intro entered done
  have hrow : done = _ := line_row handle hblock hkind hloops hdefining hfree hn hr hun hu he hreads
  have hcheck := AttributeRow.checkElement_groups hrule hallowed hr
  cases hsingle : r.isSingle with
  | false =>
    rw [hsingle] at hrow
    rw [hrow]
    simp
  | true =>
    rw [hsingle] at hrow
    cases hc : checkElement s.tags ⟨n, r.groups⟩ with
    | error f =>
      rw [hc] at hrow
      rw [hrow]
      rw [hc] at hcheck
      have hno : ¬ ∀ x ∈ r.leaders, x ∈ allowed := fun h => nomatch hcheck.mpr h
      simp [hno]
    | ok _ =>
      have hleaders := hcheck.mp hc
      have hclean := AttributeRow.backslash_not_mem hn hr hu (k := k)
      obtain ⟨hsame, houtput⟩ := writeLine_output (s := s.learn u k) (k := k)
        (u.times k ++ (Definition.tags ⟨n, []⟩).2) n hclean
      rw [hc] at hrow
      change done = (writeLine k (u.times k) _ _ _).runFrom _ at hrow
      rw [← hrow] at hsame houtput
      refine ⟨?_, fun hok => ⟨houtput hok, ?_, ?_⟩⟩
      · rw [hsame]
        exact ⟨fun h => ⟨rfl, hleaders, h⟩, fun h => h.2.2⟩
      · exact AttributeRow.attributeNames_startTag hn hr
      · rw [AttributeRow.attributeNames_startTag hn hr, AttributeRow.forall_names_iff]
        exact and_iff_right hleaders

def strictTags : TagTable := [("p", ⟨.normal, some ["x"]⟩)]

def spacedRow : AttributeRow := ⟨("x", "1"), [(" ", "y", "2")]⟩

theorem line_row_iff_strict :
    ((line (lineTo 0) "p(x=\"1\" y=\"2\"):\n").runFrom { tags := strictTags }).1 = .ok () ∧
      ((line (lineTo 0) "p(x=\"1\" y=\"2\"):\n").runFrom { tags := strictTags }).2.output =
        "<p x=\"1\" y=\"2\">\n" ∧
      ¬ ∀ x ∈ attributeNames "<p x=\"1\" y=\"2\">".toList, x ∈ ["x".toList] := by
  have h := line_row_iff (s := { tags := strictTags }) (n := "p") (r := spacedRow)
    (u := "\t") (k := 0) (e := "\n") (lineTo 0) rfl rfl rfl rfl rfl (by decide) rfl rfl
    (by decide) (by decide) (by decide) (Or.inr rfl) (Or.inr ⟨rfl, Nat.zero_le 1⟩)
  have hok := h.1.mpr ⟨by decide, by decide, rfl⟩
  obtain ⟨houtput, _, hiff⟩ := h.2 hok
  exact ⟨hok, houtput, fun hall => absurd (hiff.mp hall) (by decide)⟩

/-- An attribute that the table does not list is printed behind one that it lists. -/
theorem forbiddenAttribute_printed :
    (Document.compile strictTags [("a", "p(x=\"1\" y=\"2\"):\n")] "a").fault = none ∧
      (Document.compile strictTags [("a", "p(x=\"1\" y=\"2\"):\n")] "a").output =
        "<p x=\"1\" y=\"2\" />\n" ∧
      "y".toList ∈ attributeNames "<p x=\"1\" y=\"2\" />".toList ∧ "y".toList ∉ ["x".toList] :=
  ⟨by decide +kernel, by decide +kernel, by decide, by decide⟩

end Compile
end OutlineMarkup
