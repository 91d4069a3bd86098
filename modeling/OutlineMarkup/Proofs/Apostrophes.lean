import OutlineMarkup.Proofs.AttributeLists

/-!
# Apostrophes in attribute values

A piece of an attribute list with an odd number of apostrophes counts as the start of a text in single
quotes, also where all of them stand inside double quotes. No later piece ends with an apostrophe, so
this attribute and all that follow it are lost. Main statement: what is read of a list are the
attributes before the first value with an odd number of apostrophes.
-/

namespace OutlineMarkup
open List Text Markup

/-- Letters, digits, spaces and apostrophes. -/
def isProse (v : Text) : Bool := v.all fun c => c.isAlphanum || c == ' ' || c == '\''

def isPaired (v : Text) : Bool := v.count '\'' % 2 == 0

/-- A list of attributes with quoted values, in parentheses. -/
def attributeList (as : List (Text × Text)) : Text :=
  '(' :: (Text.join ", " (as.map Markup.attributeText) ++ [')'])

namespace Attributes
variable {name value : Text} {a : Text × Text} {as : List (Text × Text)} {c : Char} {rs : List Text}

theorem not_mem_prose (h : isProse value)
    (hc : (c.isAlphanum || c == ' ' || c == '\'') = false) : c ∉ value :=
  not_mem_of_all (all_eq_true.mp h) hc

theorem not_mem_proseText (hname : isBareWord name) (hvalue : isProse value)
    (hword : isWordChar c = false) (hprose : (c.isAlphanum || c == ' ' || c == '\'') = false)
    (hsigns : c ≠ '=' ∧ c ≠ '"') : c ∉ attributeText (name, value) := by
  rw [attributeText_eq]
  apply Attribute.not_mem_quoted hname hword hsigns
  rw [mem_append, mem_singleton]
  exact not_or.mpr ⟨not_mem_prose hvalue hprose, hsigns.2⟩

theorem solid_attributeText (hname : isBareWord name) (value : Text) :
    Solid (attributeText (name, value)) := by
  rw [attributeText_eq]
  exact Attribute.solid_quoted hname value

theorem getLast?_attributeText (a : Text × Text) : (attributeText a).getLast? = some '"' := getLast?_concat

theorem after_attributeText (hname : isBareWord name) (hvalue : isProse value) :
    Open.after {} (attributeText (name, value)) =
      .ok ⟨if isPaired value then none else some '\'', false⟩ := by
  obtain ⟨c, hc, hword⟩ := head?_word hname
  have hfirst : (attributeText (name, value)).head? = some c := by
    rw [attributeText_eq, head?_append, hc]
    rfl
  have hdouble : (attributeText (name, value)).count '"' = 2 := by
    have hcut : Markup.attributeText (name, value) = (name ++ '=' :: '"' :: value) ++ ['"'] := by
      simp [attributeText_eq]
    rw [hcut, count_append, Attribute.count_quoted hname (not_mem_prose hvalue (by decide))]
    rfl
  have hsingle : (attributeText (name, value)).count '\'' = value.count '\'' := by
    have hfree : name.count '\'' = 0 := count_eq_zero.mpr (not_mem_word hname (by decide))
    rw [attributeText_eq, count_append, hfree]
    simp
  have hbracket : (c == '[') = false := beq_false_of_ne (ne_of_class hword (by decide))
  rw [Open.after, hfirst, getLast?_attributeText, hdouble, hsingle]
  rcases Nat.mod_two_eq_zero_or_one (value.count '\'') with hcount | hcount
  · simp [isPaired, hcount, hbracket]
  · simp [isPaired, hcount, hbracket]

/-! ## Waiting for an apostrophe -/

def inApostrophes : Open := ⟨some '\'', false⟩

theorem endsQuote_of_getLast? {piece : Text} {q d : Char} (hlast : piece.getLast? = some d) (hne : d ≠ q) :
    Open.endsQuote q piece = false := by
  obtain ⟨p, rfl⟩ := getLast?_eq_some_iff.mp hlast
  rw [Open.endsQuote, reverse_append]
  cases p.reverse with
  | nil => simpa using hne
  | cons e r => simp [hne]

theorem collect_inApostrophes (h : ∀ r ∈ rs, r.trim.getLast? = some '"') (buffer : Text) :
    collect inApostrophes buffer rs = .ok [] := by
  induction rs generalizing buffer with
  | nil => rfl
  | cons r rs ih =>
    have hlast := h r mem_cons_self
    have hafter : inApostrophes.after r.trim = .ok inApostrophes := by
      change Except.ok (if Open.endsQuote '\'' r.trim then _ else _) = _
      rw [endsQuote_of_getLast? hlast (by decide)]
      rfl
    rw [collect_cons_of_after hafter]
    exact ih (forall_mem_cons.mp h).2 _

/-- Pieces are put together up to the first one with an odd number of apostrophes. -/
theorem collect_attributes (hpieces : rs.map trim = as.map attributeText)
    (h : ∀ a ∈ as, isBareWord a.1 ∧ isProse a.2) (buffer : Text) :
    collect {} buffer rs = .ok ((as.takeWhile (isPaired ·.2)).map attributeText) := by
  induction as generalizing rs buffer with
  | nil =>
    obtain rfl := map_eq_nil_iff.mp hpieces
    rfl
  | cons a as ih =>
    obtain ⟨r, rs, rfl, hr, hrs⟩ := map_eq_cons_iff.mp hpieces
    obtain ⟨hname, hvalue⟩ := h a mem_cons_self
    have hrest : ∀ x ∈ as, isBareWord x.1 ∧ isProse x.2 := (forall_mem_cons.mp h).2
    have hafter : Open.after {} r.trim = .ok ⟨if isPaired a.2 then none else some '\'', false⟩ := by
      rw [hr]
      exact after_attributeText hname hvalue
    cases hpaired : isPaired a.2 with
    | true =>
      rw [hpaired, if_pos rfl] at hafter
      have hsolid : Solid r.trim := by
        rw [hr]
        exact solid_attributeText hname a.2
      rw [collect_piece hsolid hafter, ih hrs hrest, hr, takeWhile_cons, hpaired]
      rfl
    | false =>
      rw [hpaired, if_neg Bool.false_ne_true] at hafter
      rw [collect_cons_of_after hafter, takeWhile_cons, hpaired]
      apply collect_inApostrophes
      intro q hq
      have hmem : q.trim ∈ as.map attributeText := hrs ▸ mem_map_of_mem hq
      obtain ⟨x, _, hx⟩ := mem_map.mp hmem
      rw [← hx]
      exact getLast?_attributeText x

/-! ## Reading the list -/

theorem expand_attributes (h : ∀ a ∈ as, isBareWord a.1) :
    (as.map attributeText).mapM (fun p => do return unquoteName (← expand p)) =
      .ok (as.map attributeText) := by
  apply mapM_eq_ok_self
  intro p hp
  obtain ⟨a, ha, rfl⟩ := mem_map.mp hp
  obtain ⟨c, hc, hword⟩ := head?_word (h a ha)
  have hfirst : (attributeText a).head? = some c := by
    rw [attributeText_eq, head?_append, hc]
    rfl
  have hexpand : expand (attributeText a) = .ok (attributeText a) := by
    rw [attributeText_eq]
    exact Attribute.expand_quoted (h a ha) a.2
  rw [hexpand]
  change Except.ok (unquoteName (attributeText a)) = _
  rw [Attribute.unquoteName_of_head? hfirst (Attribute.isQuote_eq_false_of_isWordChar hword)]

theorem read_attributeList (hne : as ≠ []) (h : ∀ a ∈ as, isBareWord a.1 ∧ isProse a.2) :
    read (attributeList as) = .ok ((as.takeWhile (isPaired ·.2)).map attributeText) := by
  obtain ⟨a, as, rfl⟩ := exists_cons_of_ne_nil hne
  have hsigns : ∀ p ∈ (a :: as).map attributeText, ',' ∉ p ∧ '\n' ∉ p := by
    intro p hp
    obtain ⟨x, hx, rfl⟩ := mem_map.mp hp
    obtain ⟨hname, hvalue⟩ := h x hx
    exact ⟨not_mem_proseText hname hvalue (by decide) (by decide) (by decide),
      not_mem_proseText hname hvalue (by decide) (by decide) (by decide)⟩
  have hfeed : '\n' ∉ join ", " ((a :: as).map attributeText) := by
    intro hm
    rcases mem_join hm with hm | ⟨p, hp, hm⟩
    · exact absurd hm (by decide)
    · exact (hsigns p hp).2 hm
  have hinside : inParentheses? (attributeList (a :: as)) = some (join ", " ((a :: as).map attributeText)) :=
    inParentheses?_append (n := []) (by decide) hfeed (by decide) (by decide)
  have hsplit := splitAtChar_join (b := [' ']) (by decide) fun p hp => (hsigns p hp).1
  have htrim : (splitAtChar (join ", " ((a :: as).map attributeText)) ',').map trim =
      (a :: as).map attributeText := by
    have hsolid : ∀ x ∈ a :: as, Solid (attributeText x) := fun x hx => solid_attributeText (h x hx).1 x.2
    change map trim (splitAtChar (join (',' :: [' ']) (_ :: _)) ',') = _
    rw [hsplit, map_cons, (hsolid a mem_cons_self).trim_eq, map_map, map_map]
    apply congrArg (attributeText a :: ·)
    apply map_congr_left
    intro x hx
    exact trim_spaces (b := [' ']) (by decide) (hsolid x (mem_cons_of_mem _ hx))
  have hcollect := collect_attributes htrim h []
  have hnames : ∀ x ∈ (a :: as).takeWhile (isPaired ·.2), isBareWord x.1 := fun x hx =>
    (h x ((takeWhile_sublist _).subset hx)).1
  have hexpand := expand_attributes hnames
  obtain ⟨c, r, hcons⟩ : ∃ c r, join ", " ((a :: as).map attributeText) = c :: r := by
    apply exists_cons_of_ne_nil
    intro hnil
    have hinfix : attributeText a <:+: join ", " ((a :: as).map attributeText) := infix_join mem_cons_self
    rw [hnil] at hinfix
    exact (solid_attributeText (h a mem_cons_self).1 a.2).ne_nil (infix_nil.mp hinfix)
  rw [read, hinside]
  rw [hcons] at hcollect ⊢
  change (collect {} [] (splitAtChar (c :: r) ',') >>= fun collected => _) = _
  rw [hcollect]
  exact hexpand

/-- The attributes before the first value with an odd number of apostrophes are read, as they are
written, and no others; so all attributes are read, each with its name and its value, if and only if
the apostrophes of every value come in pairs. -/
theorem read_attributeList_iff (as : List (Text × Text)) (hne : as ≠ [])
    (h : ∀ a ∈ as, isBareWord a.1 = true ∧ isProse a.2 = true) :
    read (attributeList as) = .ok ((as.takeWhile (isPaired ·.2)).map Markup.attributeText) ∧
      ((∃ items, read (attributeList as) = .ok items ∧
          List.Forall₂ (fun a item => a.1 <:+: item ∧ a.2 <:+: item) as items) ↔
        ∀ a ∈ as, isPaired a.2 = true) := by
  have hread := read_attributeList hne h
  refine ⟨hread, ?_⟩
  constructor
  · rintro ⟨items, hitems, hall⟩
    rw [hread] at hitems
    have hlength := hall.length_eq
    rw [← Except.ok.inj hitems, List.length_map] at hlength
    have hinit : as.takeWhile (isPaired ·.2) <+: as := List.takeWhile_prefix _
    exact List.takeWhile_eq_self_iff.mp (hinit.eq_of_length hlength.symm)
  · intro hpaired
    rw [List.takeWhile_eq_self_iff.mpr hpaired] at hread
    refine ⟨_, hread, ?_⟩
    rw [List.forall₂_map_right_iff, List.forall₂_same]
    intro a _
    rw [attributeText_eq]
    exact ⟨(List.prefix_append _ _).isInfix, ⟨a.1 ++ "=\"", ['"'], by simp⟩⟩

/-- The second value has one apostrophe, so that only the first attribute is left. -/
theorem read_attributeList_iff_sample :
    (∀ a ∈ [("a".toList, "'x' y".toList), ("b".toList, "it's".toList), ("c".toList, "1".toList)],
      isBareWord a.1 = true ∧ isProse a.2 = true) ∧
    read "(a=\"'x' y\", b=\"it's\", c=\"1\")".toList = .ok ["a=\"'x' y\"".toList] :=
  ⟨by decide, (read_attributeList_iff [("a".toList, "'x' y".toList), ("b".toList, "it's".toList),
    ("c".toList, "1".toList)] (by decide) (by decide)).1⟩

/-- One apostrophe, and the only attribute is not read. -/
theorem apostrophe_loses_attribute :
    ¬ ∃ items, read (attributeList [("a", "it's")]) = .ok items ∧
      List.Forall₂ (fun (a : Text × Text) item => a.1 <:+: item ∧ a.2 <:+: item)
        [("a", "it's")] items := by
  rintro ⟨items, hitems, hall⟩
  have hread : read (attributeList [("a", "it's")]) = .ok [] := by decide
  rw [hread] at hitems
  rw [← Except.ok.inj hitems] at hall
  cases hall

end Attributes
end OutlineMarkup
