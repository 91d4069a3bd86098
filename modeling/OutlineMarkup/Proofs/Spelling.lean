import OutlineMarkup.Proofs.Reading

/-!
# Spellings

An element or a call may be spelled with or without blanks behind its commas and with or without
a colon. Every spelling is calm, and all of them are read as the same name and attributes.
-/

namespace OutlineMarkup
open List Text Markup Attributes
variable {name p : Text} {colon : Bool} {α : Type}

/-- A name, a list in parentheses, and what follows them. -/
def callText (name blanks : Text) (items : List Text) (tail : Text) : Text :=
  name ++ '(' :: (Text.join (',' :: blanks) items ++ ')' :: tail)

/-- What a method may be called by. -/
structure CallName (name : Text) : Prop where
  head : ∃ c, name.head? = some c ∧ Text.isWordChar c = true
  chars : ∀ c ∈ name, Text.isWordChar c = true

theorem callName_of_isAlphanumeric (h : name.isAlphanumeric) : CallName name := by
  obtain ⟨hne, hall⟩ := (isAlphanumeric_iff name).mp h
  obtain ⟨c, r, rfl⟩ := exists_cons_of_ne_nil hne
  exact ⟨⟨c, rfl, by simp [isWordChar, hall c mem_cons_self]⟩, fun d hd => by simp [isWordChar, hall d hd]⟩

theorem callName_of_isName (h : name.isName) : CallName name := by
  match name, h with
  | c :: r, h =>
    simp only [isName, isNameStart, Bool.and_eq_true, Bool.or_eq_true, all_eq_true] at h
    have hc : isWordChar c := by
      rcases h.1 with hc | hc <;> simp [isWordChar, Char.isAlphanum, hc]
    refine ⟨⟨c, rfl, hc⟩, fun d hd => ?_⟩
    rcases mem_cons.mp hd with rfl | hd
    · exact hc
    · exact h.2 d hd

theorem isName_of_isCallName (h : isCallName name) : name.isName := by
  match name, h with
  | c :: r, h =>
    simp only [isCallName, Bool.and_eq_true] at h
    simp [isName, isNameStart, h.1, h.2]

theorem callName_of_isCallName (h : isCallName name) : CallName name :=
  callName_of_isName (isName_of_isCallName h)

theorem CallName.not_mem (h : CallName name) {c : Char}
    (hc : isWordChar c = false) : c ∉ name := not_mem_of_all h.chars hc

theorem CallName.ne_nil (h : CallName name) : name ≠ [] := by
  rintro rfl
  obtain ⟨c, hc, _⟩ := h.head
  simp at hc

theorem CallName.solid (h : CallName name) : Solid name :=
  solid_of_forall h.ne_nil fun c hc => isBlank_eq_false_of_class (h.chars c hc) (by decide)

/-- An attribute or argument that declares nothing. -/
structure CalmItem (p : Text) : Prop where
  simple : Attributes.Simple p
  signs : ∀ c ∈ p, c ≠ ']' ∧ c ≠ '.' ∧ c ≠ '\\'
  equals : EqualsAfterWord p
  start : p.head? ≠ some '='

/-- What stands between two commas and declares nothing. -/
structure CalmPiece (p : Text) : Prop where
  ne_nil : p ≠ []
  signs : ∀ c ∈ p, c ∉ ['[', ']', '.', '\n', '\\', '(', ')']
  equals : EqualsAfterWord p
  start : p.head? ≠ some '='

theorem CalmItem.piece (h : CalmItem p) : CalmPiece p := by
  refine ⟨h.simple.solid.ne_nil, ?_, h.equals, h.start⟩
  intro c hc
  have hsimple := h.simple.signs c hc
  have hsigns := h.signs c hc
  simp only [mem_cons, not_mem_nil, or_false]
  tauto

theorem calmItem_of_forall (hne : p ≠ []) (h : ∀ c ∈ p, (isWordChar c || c == '$')) : CalmItem p := by
  have hsign : ∀ d : Char, (isWordChar d || d == '$') = false → d ∉ p :=
    fun d hd => not_mem_of_all (p := fun c => isWordChar c || c == '$') h hd
  refine ⟨simple_of_forall hne h, ?_, ?_, ?_⟩
  · intro c hc
    refine ⟨?_, ?_, ?_⟩ <;> rintro rfl <;> exact hsign _ (by decide) hc
  · exact equalsAfterWord_of_not_mem (hsign _ (by decide))
  · exact fun hm => hsign _ (by decide) (mem_of_mem_head? hm)

theorem calmItem_of_isBareWord {w : Text} (h : isBareWord w) : CalmItem w := by
  simp only [isBareWord, Bool.and_eq_true, Bool.not_eq_true', isEmpty_eq_false_iff, all_eq_true] at h
  exact calmItem_of_forall h.1 fun c hc => by simp [h.2 c hc]

theorem calmItem_attributeText {a v : Text} (ha : a.isAlphanumeric)
    (hv : v.all isValueChar) : CalmItem (attributeText (a, v)) := by
  obtain ⟨hne, hall⟩ := (isAlphanumeric_iff a).mp ha
  obtain ⟨c, r, rfl⟩ := exists_cons_of_ne_nil hne
  have hc := hall c mem_cons_self
  have hvalue : ∀ d ∈ v, isValueChar d := all_eq_true.mp hv
  refine ⟨simple_attributeText ha hv, ?_, ?_, ?_⟩
  · intro d hd
    rcases mem_attributeText hd with hm | hm | rfl | rfl
    · have := hall d hm
      refine ⟨?_, ?_, ?_⟩ <;> exact ne_of_class this (by decide)
    · have := hvalue d hm
      refine ⟨?_, ?_, ?_⟩ <;> exact ne_of_class this (by decide)
    · decide
    · decide
  · have hname : EqualsAfterWord (c :: r) := equalsAfterWord_of_not_mem (not_mem_of_all hall (by decide))
    have hequals : '=' ∉ v := not_mem_of_all hvalue (by decide)
    have hquoted : EqualsAfterWord ('"' :: (v ++ ['"'])) := equalsAfterWord_of_not_mem (by simp [hequals])
    rw [attributeText_eq]
    refine IsChain.append hname (hquoted.cons (by simp)) ?_
    intro d hd e he _
    exact hall d (mem_of_mem_getLast? hd)
  · rw [attributeText_eq]
    simpa using ne_of_class hc (by decide)

/-! ## Lists in parentheses -/

section CallText
variable {name b tail : Text} {items : List Text} {c : Char}

theorem mem_colonText (h : c ∈ colonText colon) : c = ':' := by
  cases colon with
  | false => cases h
  | true => exact mem_singleton.mp h

theorem mem_callText (h : c ∈ callText name b items tail) :
    c ∈ name ∨ c ∈ ['(', ',', ')'] ∨ c ∈ b ∨ (∃ p ∈ items, c ∈ p) ∨ c ∈ tail := by
  simp only [callText, mem_append, mem_cons] at h
  rcases h with h | rfl | h | rfl | h
  · exact .inl h
  · exact .inr (.inl (by decide))
  · rcases mem_join h with h | h
    · rcases mem_cons.mp h with rfl | h
      · exact .inr (.inl (by decide))
      · exact .inr (.inr (.inl h))
    · exact .inr (.inr (.inr (.inl h)))
  · exact .inr (.inl (by decide))
  · exact .inr (.inr (.inr (.inr h)))

theorem equals_join (hb : ∀ c ∈ b, c = ' ') (hi : ∀ p ∈ items, CalmPiece p) :
    EqualsAfterWord (join (',' :: b) items) ∧ (join (',' :: b) items).head? ≠ some '=' := by
  have hbe : '=' ∉ b := fun hm => absurd (hb _ hm) (by decide)
  induction items with
  | nil => exact ⟨.nil, by simp [join]⟩
  | cons p ps ih =>
    have hp := hi p mem_cons_self
    obtain ⟨hrest, hhead⟩ := ih (forall_mem_cons.mp hi).2
    cases ps with
    | nil => simpa [join] using ⟨hp.equals, hp.start⟩
    | cons q qs =>
      have hjoin : join (',' :: b) (p :: q :: qs) =
          p ++ ((',' :: b) ++ join (',' :: b) (q :: qs)) := by simp [join]
      have hsep : EqualsAfterWord (',' :: b) := equalsAfterWord_of_not_mem (by simp [hbe])
      rw [hjoin]
      refine ⟨hp.equals.append (hsep.append hrest hhead) (by simp), ?_⟩
      rw [head?_append_of_ne_nil _ hp.ne_nil]
      exact hp.start

theorem head?_dropWhile_append_cons {p : Char → Bool} {a s : Text} (hc : p c = false) :
    ∀ d ∈ ((a ++ c :: s).dropWhile p).head?, d ∈ a ∨ d = c := by
  induction a with
  | nil => simp [hc]
  | cons x a ih =>
    intro d hd
    rw [cons_append, dropWhile_cons] at hd
    split at hd
    · rcases ih d hd with h | h
      · exact .inl (.tail _ h)
      · exact .inr h
    · obtain rfl : x = d := by simpa using hd
      exact .inl mem_cons_self

section Name
variable (hn : CallName name) (colon : Bool)
include hn

theorem solid_callText : Solid (callText name b items (colonText colon)) := by
  constructor
  · obtain ⟨c, hc, hletter⟩ := hn.head
    refine ⟨c, ?_, isBlank_eq_false_of_isWordChar hletter⟩
    rw [callText, head?_append_of_ne_nil _ hn.ne_nil, hc]
  · cases colon with
    | false => exact ⟨')', by simp [callText, colonText, getLast?_append, getLast?_cons], rfl⟩
    | true => exact ⟨':', by simp [callText, colonText, getLast?_append, getLast?_cons], rfl⟩

theorem solid_name : Solid (name ++ colonText colon) := by
  cases colon with
  | false => simpa [colonText] using hn.solid
  | true =>
    obtain ⟨c, hc, hb⟩ := hn.solid.head
    refine ⟨⟨c, by rw [head?_append_of_ne_nil _ hn.ne_nil, hc], hb⟩, ⟨':', ?_, rfl⟩⟩
    simp [colonText, getLast?_append]

theorem read_callText_of_read {as : List Text} (hread : read (callText name b items (colonText colon)) = .ok as) :
    Definition.read (callText name b items (colonText colon)) = .ok ⟨name, as⟩ := by
  have hhas : (callText name b items (colonText colon)).hasChar '(' := by
    rw [hasChar_iff]
    simp [callText]
  have hbefore : (callText name b items (colonText colon)).before "(" = name :=
    before_append_cons (hn.not_mem (by decide))
  rw [Definition.read, (solid_callText hn colon).trim_eq]
  simp only [hhas, if_true, hbefore, hn.solid.trimRight_eq, hread]
  rfl

theorem read_name : Definition.read (name ++ colonText colon) = .ok ⟨name, []⟩ := by
  have hparen : (name ++ colonText colon).hasChar '(' = false := by
    rw [hasChar_eq_false_iff]
    cases colon <;> simp [colonText, hn.not_mem (c := '(') (by decide)]
  have hcolon : ':' ∉ name := hn.not_mem (by decide)
  have hreplace : (name ++ colonText colon).replace ":" [] = name := by
    cases colon with
    | false =>
      simpa [colonText] using replace_eq_self_of_not_mem (c := ':') (by simp) hcolon []
    | true => exact replace_last hcolon
  rw [Definition.read, (solid_name hn colon).trim_eq]
  simp only [hparen, Bool.false_eq_true, if_false, hreplace]

theorem not_mem_name {d : Char} (hd : isWordChar d = false) (hd' : d ≠ ':') :
    d ∉ name ++ colonText colon := fun hm =>
  (mem_append.mp hm).elim (hn.not_mem hd) fun h => hd' (mem_colonText h)

theorem steady_name : Steady (name ++ colonText colon) := by
  have hne : ∀ d : Char, isWordChar d = false → d ≠ ':' → d ∉ name ++ colonText colon :=
    fun d => not_mem_name hn colon
  refine ⟨?_, (solid_name hn colon).last, ?_, ?_, ?_⟩
  · obtain ⟨c, hc, hletter⟩ := hn.head
    exact ⟨c, by rw [head?_append_of_ne_nil _ hn.ne_nil, hc], .inl hletter⟩
  · intro hspace
    exact hne ' ' (by decide) (by decide)
      ((dropWhile_suffix _).subset (mem_of_mem_head? hspace))
  · intro d hd
    refine ⟨?_, ?_, ?_, ?_, ?_⟩ <;> rintro rfl <;> exact hne _ (by decide) (by decide) hd
  · exact equalsAfterWord_of_not_mem (hne _ (by decide) (by decide))

theorem balanced_name : (name ++ colonText colon).count '(' = (name ++ colonText colon).count ')' := by
  rw [count_eq_zero.mpr (not_mem_name hn colon (by decide) (by decide)),
    count_eq_zero.mpr (not_mem_name hn colon (by decide) (by decide))]

theorem calm_name (hun : isUnreserved (name ++ colonText colon)) :
    Calm (name ++ colonText colon) := ⟨steady_name hn colon, hun, balanced_name hn colon⟩

section Blanks
variable (hb : ∀ c ∈ b, c = ' ')
include hb

theorem steady_callText (hi : ∀ p ∈ items, CalmPiece p) : Steady (callText name b items (colonText colon)) := by
  have htne : ∀ c : Char, c ≠ ':' → c ∉ colonText colon := fun c hc hm => hc (mem_colonText hm)
  refine ⟨?_, (solid_callText hn colon).last, ?_, ?_, ?_⟩
  · obtain ⟨c, hc, hletter⟩ := hn.head
    exact ⟨c, by rw [callText, head?_append_of_ne_nil _ hn.ne_nil, hc], .inl hletter⟩
  · intro hspace
    rcases head?_dropWhile_append_cons (a := name) (c := '(') rfl ' ' hspace with h | h
    · exact hn.not_mem (by decide) h
    · exact absurd h (by decide)
  · intro c hc
    rcases mem_callText hc with h | h | h | ⟨p, hp, h⟩ | h
    · have := hn.chars c h
      refine ⟨?_, ?_, ?_, ?_, ?_⟩ <;> exact ne_of_class this (by decide)
    · exact (by decide : ∀ c ∈ ['(', ',', ')'], c ≠ '[' ∧ c ≠ ']' ∧ c ≠ '.' ∧ c ≠ '\n' ∧ c ≠ '\\') c h
    · rw [hb c h]
      decide
    · have hsigns := (hi p hp).signs c h
      simp only [mem_cons, not_mem_nil, or_false] at hsigns
      tauto
    · rw [mem_colonText h]
      decide
  · obtain ⟨hjoin, hhead⟩ := equals_join hb hi
    have hname : EqualsAfterWord name := equalsAfterWord_of_not_mem (hn.not_mem (by decide))
    have hend : EqualsAfterWord (')' :: colonText colon) :=
      equalsAfterWord_of_not_mem (by simp [htne '=' (by decide)])
    have hinside : EqualsAfterWord (['('] ++ (join (',' :: b) items ++ ')' :: colonText colon)) := by
      refine (equalsAfterWord_of_not_mem (by simp)).append (hjoin.append hend (by simp)) ?_
      cases hj : join (',' :: b) items with
      | nil => simp
      | cons c r =>
        rw [hj] at hhead
        simpa using hhead
    exact hname.append hinside (by simp)

theorem balanced_callText (hi : ∀ p ∈ items, CalmPiece p) :
    (callText name b items (colonText colon)).count '(' = (callText name b items (colonText colon)).count ')' := by
  have hcount : ∀ c ∈ ['(', ')'], name.count c = 0 ∧ (colonText colon).count c = 0 ∧
      (join (',' :: b) items).count c = 0 := by
    intro c hc
    have hclass : ∀ d ∈ ['(', ')'], isWordChar d = false ∧ d ≠ ':' ∧ d ≠ ',' ∧ d ≠ ' ' ∧
        d ∈ ['[', ']', '.', '\n', '\\', '(', ')'] := by decide
    obtain ⟨hword, hcolon, hcomma, hspace, hsign⟩ := hclass c hc
    refine ⟨count_eq_zero.mpr (hn.not_mem hword), count_eq_zero.mpr fun hm => hcolon (mem_colonText hm),
      count_eq_zero.mpr fun hm => ?_⟩
    rcases mem_join hm with hm | ⟨p, hp, hm⟩
    · exact (mem_cons.mp hm).elim hcomma fun hm => hspace (hb c hm)
    · exact (hi p hp).signs c hm hsign
  obtain ⟨h1, h2, h3⟩ := hcount '(' (by simp)
  obtain ⟨h4, h5, h6⟩ := hcount ')' (by simp)
  simp [callText, h1, h2, h3, h4, h5, h6]

theorem calm_callText (hi : ∀ p ∈ items, CalmPiece p) (hun : isUnreserved (callText name b items (colonText colon))) :
    Calm (callText name b items (colonText colon)) :=
  ⟨steady_callText hn colon hb hi, hun, balanced_callText hn colon hb hi⟩

theorem read_callText_of_whole (hi : ∀ p ∈ items, Whole p) :
    Definition.read (callText name b items (colonText colon)) = .ok ⟨name, items⟩ := by
  refine read_callText_of_read hn colon (read_whole (hn.not_mem (by decide)) ?_ ?_ hb hi)
  · cases colon <;> simp [colonText]
  · cases colon <;> simp [colonText]

theorem read_callText (hi : ∀ p ∈ items, Simple p) :
    Definition.read (callText name b items (colonText colon)) = .ok ⟨name, items⟩ :=
  read_callText_of_whole hn colon hb fun p hp => (hi p hp).whole

omit colon in
theorem read_blank_callText (hi : ∀ p ∈ items, Whole p) :
    Definition.read ([' '] ++ callText name b items []) = .ok ⟨name, items⟩ := by
  have hsolid : Solid (callText name b items []) := solid_callText hn false
  have htrim : trim ([' '] ++ callText name b items []) = (callText name b items []).trim := by
    rw [hsolid.trim_eq]
    simpa using trim_append_solid (a := [' ']) (b := []) (by simp [isBlank]) (by simp) hsolid
  rw [Definition.read, htrim, ← Definition.read]
  exact read_callText_of_whole hn false hb hi

end Blanks
end Name

theorem infix_callText {part : Text} (hb : ∀ c ∈ b, c = ' ') (hne : part ≠ []) (hw : ∀ c ∈ part, isWordChar c)
    (h : part <:+: callText name b items (colonText colon)) : part <:+: name ∨ ∃ p ∈ items, part <:+: p := by
  have hnot : ∀ c : Char, isWordChar c = false → c ∉ part := fun c hc => not_mem_of_all hw hc
  have hblank : ∀ c ∈ part, c ∉ b := fun c hc hm => hnot ' ' (by decide) (hb c hm ▸ hc)
  have htail : ¬ part <:+: colonText colon := by
    intro hi
    obtain ⟨c, r, rfl⟩ := exists_cons_of_ne_nil hne
    exact hnot ':' (by decide) (mem_colonText (hi.subset mem_cons_self) ▸ mem_cons_self)
  have hjoin : ∀ items : List Text, part <:+: join (',' :: b) items → ∃ p ∈ items, part <:+: p := by
    intro items
    induction items with
    | nil =>
      intro hi
      exact absurd (infix_nil.mp hi) hne
    | cons p ps ih =>
      intro hi
      cases ps with
      | nil => exact ⟨p, mem_cons_self, by simpa [join] using hi⟩
      | cons q qs =>
        have hcut : join (',' :: b) (p :: q :: qs) =
            p ++ ',' :: (b ++ join (',' :: b) (q :: qs)) := by simp [join]
        rw [hcut] at hi
        rcases infix_append_cons (hnot ',' (by decide)) hi with hi | hi
        · exact ⟨p, mem_cons_self, hi⟩
        · obtain ⟨r, hr, hi⟩ := ih (infix_of_infix_append_left hne hblank hi)
          exact ⟨r, .tail _ hr, hi⟩
  rcases infix_append_cons (hnot '(' (by decide)) h with hi | hi
  · exact .inl hi
  · rcases infix_append_cons (hnot ')' (by decide)) hi with hi | hi
    · exact .inr (hjoin items hi)
    · exact absurd hi htail

theorem item_infix_callText (hp : p ∈ items) : p <:+: callText name b items tail := by
  have hjoin : ∀ items : List Text, p ∈ items → p <:+: join (',' :: b) items := by
    intro items
    induction items with
    | nil => simp
    | cons q qs ih =>
      intro hp
      cases qs with
      | nil =>
        obtain rfl : p = q := by simpa using hp
        exact ⟨[], [], by simp [join]⟩
      | cons r rs =>
        have hcut : join (',' :: b) (q :: r :: rs) =
            q ++ ((',' :: b) ++ join (',' :: b) (r :: rs)) := by simp [join]
        rw [hcut]
        rcases mem_cons.mp hp with rfl | hp
        · exact (prefix_append _ _).isInfix
        · refine (ih hp).trans (IsSuffix.isInfix ?_)
          exact (suffix_append _ _).trans (suffix_append _ _)
  refine (hjoin items hp).trans ⟨name ++ ['('], ')' :: tail, ?_⟩
  simp [callText]

/-- Another spelling of a list: other blanks in front of its items, and another tail. -/
theorem isUnreserved_respell {b' : Text} {items' : List Text} (hb : ∀ c ∈ b, c = ' ')
    (hi : ∀ q ∈ items, ∃ p ∈ items', ∃ a, (∀ c ∈ a, isBlank c) ∧ q = a ++ p)
    (h : isUnreserved (callText name b' items' tail)) : isUnreserved (callText name b items (colonText colon)) := by
  have go : ∀ part : Text, part ≠ [] → (∀ c ∈ part, isWordChar c) →
      (callText name b' items' tail).has part = false →
      (callText name b items (colonText colon)).has part = false := by
    intro part hne hw hno
    rw [has_eq_false_iff] at hno ⊢
    intro hpart
    rcases infix_callText hb hne hw hpart with hpart | ⟨q, hq, hpart⟩
    · exact hno (hpart.trans (prefix_append _ _).isInfix)
    · obtain ⟨p, hp, a, ha, rfl⟩ := hi q hq
      refine hno (IsInfix.trans (infix_of_infix_append_left hne (fun c hc hm => ?_) hpart)
        (item_infix_callText hp))
      exact absurd (ha c hm) (by simp [isBlank_eq_false_of_isWordChar (hw c hc)])
  simp only [isUnreserved, Bool.and_eq_true, Bool.not_eq_true'] at h ⊢
  exact ⟨⟨go _ (by decide) (by decide) h.1.1, go _ (by decide) (by decide) h.1.2⟩,
    go _ (by decide) (by decide) h.2⟩

end CallText

/-! ## Plain markup -/

namespace Markup

theorem isMadeOf_name {p : α → Bool} {m : Markup α} (h : m.isMadeOf p) : ∀ name ∈ m.name?, name.isAlphanumeric := by
  intro name hname
  cases m with
  | text t => cases hname
  | element name' attributes colon =>
    cases hname
    rw [isMadeOf, Bool.and_eq_true] at h
    exact h.1

theorem isMadeOf_mono {p q : α → Bool} (h : ∀ a, p a → q a) {m : Markup α} (hm : m.isMadeOf p) : m.isMadeOf q := by
  cases m with
  | text t => exact h t hm
  | element name attributes colon =>
    simp only [isMadeOf, Bool.and_eq_true, all_eq_true] at hm ⊢
    exact ⟨hm.1, fun a ha => ⟨(hm.2 a ha).1, h _ (hm.2 a ha).2⟩⟩

variable {m : Markup Text}

theorem isWritable_of_isPlain (h : m.isPlain) : m.isWritable := by
  refine isMadeOf_mono (fun v hv => ?_) h
  rw [all_eq_true] at hv ⊢
  exact fun c hc => by simp [isValueChar, hv c hc]

theorem attributes_calm {attributes : List (Text × Text)}
    (h : (element name (some attributes) colon).isWritable) :
    ∀ p ∈ attributes.map attributeText, CalmItem p := by
  intro p hp
  obtain ⟨⟨a, v⟩, hav, rfl⟩ := mem_map.mp hp
  simp only [isWritable, isMadeOf, Option.getD_some, Bool.and_eq_true, all_eq_true] at h
  exact calmItem_attributeText (h.2 _ hav).1 (all_eq_true.mpr (h.2 _ hav).2)

theorem written_some (name : Text) (attributes : List (Text × Text)) (colon : Bool) :
    (element name (some attributes) colon).written =
      callText name [' '] (attributes.map attributeText) (colonText colon) := by
  simp [written, callText]

theorem callName_of_isWritable {attributes : Option (List (Text × Text))}
    (h : (element name attributes colon).isWritable) : CallName name := by
  simp only [isWritable, isMadeOf, Bool.and_eq_true] at h
  exact callName_of_isAlphanumeric h.1

theorem not_mem_text {t : Text} (h : (text t).isWritable) {d : Char} (hd : isValueChar d = false)
    (hq : d ≠ '"') : d ∉ (text t).written := by
  intro hm
  simp only [written, cons_append, mem_cons, mem_append, not_mem_nil] at hm
  rcases hm with hm | hm | hm | hm
  · exact hq hm
  · exact not_mem_of_all (all_eq_true.mp h) hd hm
  · exact hq hm
  · exact hm

theorem steady_text {t : Text} (h : (text t).isWritable) : Steady (text t).written := by
  refine ⟨⟨'"', rfl, .inr rfl⟩, ⟨'"', by simp [written, getLast?_cons], rfl⟩, ?_, ?_, ?_⟩
  · simp [written]
  · intro d hd
    refine ⟨?_, ?_, ?_, ?_, ?_⟩ <;> rintro rfl <;> exact not_mem_text h (by decide) (by decide) hd
  · exact equalsAfterWord_of_not_mem (not_mem_text h (by decide) (by decide))

theorem steady_written (h : m.isWritable) :
    Steady m.written ∧ m.written.count '(' = m.written.count ')' := by
  match m, h with
  | text t, h =>
    refine ⟨steady_text h, ?_⟩
    rw [count_eq_zero.mpr (not_mem_text h (by decide) (by decide)),
      count_eq_zero.mpr (not_mem_text h (by decide) (by decide))]
  | element name none colon, h =>
    have hn := callName_of_isWritable h
    exact ⟨steady_name hn colon, balanced_name hn colon⟩
  | element name (some attributes) colon, h =>
    have hn := callName_of_isWritable h
    have hpieces := fun p hp => (attributes_calm h p hp).piece
    rw [written_some]
    exact ⟨steady_callText hn colon (by simp) hpieces, balanced_callText hn colon (by simp) hpieces⟩

theorem calm_written (h : m.isWritable)
    (hun : isUnreserved m.written) : Calm m.written := ⟨(steady_written h).1, hun, (steady_written h).2⟩

end Markup

/-! ## Tags without references -/

/-- A tag without references that is read as a name with attributes. -/
structure Names (tag : Text) (d : Definition) : Prop where
  calm : Calm tag
  dollar : '$' ∉ tag
  quote : tag.head? ≠ some '"'
  read : Definition.read tag = .ok d

theorem CallName.quote (hn : CallName name) (rest : Text) : (name ++ rest).head? ≠ some '"' := by
  obtain ⟨c, hc, hletter⟩ := hn.head
  rw [head?_append_of_ne_nil _ hn.ne_nil, hc]
  simpa using ne_of_class hletter (by decide)

section Names
variable {name b : Text} {items as : List Text} (hn : CallName name) (colon : Bool)
  (hb : ∀ c ∈ b, c = ' ') (hun : isUnreserved (callText name b items (colonText colon)))
include hn hb hun

theorem names_pieces (hi : ∀ p ∈ items, CalmPiece p ∧ '$' ∉ p)
    (hread : Definition.read (callText name b items (colonText colon)) = .ok ⟨name, as⟩) :
    Names (callText name b items (colonText colon)) ⟨name, as⟩ := by
  refine ⟨calm_callText hn colon hb (fun p hp => (hi p hp).1) hun, ?_, hn.quote _, hread⟩
  intro hm
  rcases mem_callText hm with hm | hm | hm | ⟨p, hp, hm⟩ | hm
  · exact hn.not_mem (by decide) hm
  · exact absurd hm (by decide)
  · exact absurd (hb _ hm) (by decide)
  · exact (hi p hp).2 hm
  · exact absurd (mem_colonText hm) (by decide)

theorem names_callText (hi : ∀ p ∈ items, CalmItem p ∧ '$' ∉ p) :
    Names (callText name b items (colonText colon)) ⟨name, items⟩ :=
  names_pieces hn colon hb hun (fun p hp => ⟨(hi p hp).1.piece, (hi p hp).2⟩)
    (read_callText hn colon hb fun p hp => (hi p hp).1.simple)

end Names

theorem names_name (hn : CallName name) (colon : Bool)
    (hun : isUnreserved (name ++ colonText colon)) : Names (name ++ colonText colon) ⟨name, []⟩ := by
  refine ⟨calm_name hn colon hun, ?_, hn.quote _, read_name hn colon⟩
  cases colon <;> simp [colonText, hn.not_mem (c := '$') (by decide)]

/-- A tag that stands for markup. -/
def Spells (tag : Text) : Markup Text → Prop
  | .element name attributes _ => Names tag (Markup.definition name attributes)
  | .text t => Calm tag ∧ '$' ∉ tag ∧ tag = '"' :: t ++ ['"']

theorem Spells.calm {tag : Text} {m : Markup Text} (h : Spells tag m) : Calm tag := by
  cases m with
  | text t => exact And.left h
  | element name attributes colon => exact Names.calm h

namespace Markup

theorem attributes_plain {attributes : List (Text × Text)}
    (h : (element name (some attributes) colon).isPlain) :
    ∀ p ∈ attributes.map attributeText, CalmItem p ∧ '$' ∉ p := by
  intro p hp
  refine ⟨attributes_calm (isWritable_of_isPlain h) p hp, ?_⟩
  obtain ⟨⟨a, v⟩, hav, rfl⟩ := mem_map.mp hp
  simp only [isPlain, isMadeOf, Option.getD_some, Bool.and_eq_true, all_eq_true] at h
  have hall := ((isAlphanumeric_iff a).mp (h.2 _ hav).1).2
  intro hm
  rcases mem_attributeText hm with hm | hm | hm | hm
  · exact not_mem_of_all hall (by decide) hm
  · exact not_mem_of_all (h.2 _ hav).2 (by decide) hm
  · exact absurd hm (by decide)
  · exact absurd hm (by decide)

theorem spells_written {m : Markup Text} (h : m.isPlain)
    (hun : isUnreserved m.written) : Spells m.written m := by
  have hw := isWritable_of_isPlain h
  match m, h, hw, hun with
  | text t, h, hw, hun =>
    have : '$' ∉ t := not_mem_of_all (all_eq_true.mp h) (by decide)
    exact ⟨calm_written hw hun, by simp [written, this], rfl⟩
  | element name none colon, _, hw, hun =>
    exact names_name (callName_of_isWritable hw) colon hun
  | element name (some attributes) colon, h, hw, hun =>
    rw [written_some] at hun ⊢
    exact names_callText (callName_of_isWritable hw) colon (by simp) hun (attributes_plain h)

end Markup
end OutlineMarkup
