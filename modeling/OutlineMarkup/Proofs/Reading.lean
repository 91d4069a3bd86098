import Mathlib.Data.List.TakeWhile
import OutlineMarkup.Proofs.Markup
import OutlineMarkup.Proofs.Texts
import OutlineMarkup.Session.Line

/-!
# Reading plain markup

Plain markup is read as what it was written from: its attributes are found again one by one, and
none of the tests that a line is put to takes it for anything but markup.
-/

namespace OutlineMarkup
open List Text Compile Assignment

open Bool (noConfusion and_eq_true not_eq_true' eq_false_iff)

open Shorthand (expandFrom read?)

variable {p : Char → Bool} {c d : Char} {s t e u tag : Text} {k : Nat}

theorem ne_of_class (hc : p c) (hd : p d = false) : c ≠ d := by
  rintro rfl
  rw [hc] at hd
  exact noConfusion hd

theorem isTagName_iff (s : Text) : isTagName s ↔ ∃ c r, s = c :: r ∧ c.isAlpha ∧ ∀ d ∈ s, d.isAlphanum := by
  cases s with
  | nil => simp [isTagName]
  | cons c r =>
    simp only [isTagName, and_eq_true, all_eq_true, mem_cons, forall_eq_or_imp]
    constructor
    · rintro ⟨hc, hr⟩
      exact ⟨c, r, rfl, hc, by simp [Char.isAlphanum, hc], hr⟩
    · rintro ⟨c', r', heq, hc, _, hr⟩
      obtain ⟨rfl, rfl⟩ := cons.inj heq
      exact ⟨hc, hr⟩

theorem isAlphanumeric_iff (s : Text) : s.isAlphanumeric ↔ s ≠ [] ∧ ∀ c ∈ s, c.isAlphanum := by
  simp [isAlphanumeric]

theorem isAlphanumeric_of_isTagName (h : isTagName s) : s.isAlphanumeric := by
  obtain ⟨c, r, rfl, _, hall⟩ := (isTagName_iff s).mp h
  exact (isAlphanumeric_iff _).mpr ⟨by simp, hall⟩

theorem not_mem_of_all (h : ∀ c ∈ s, p c)
    (hd : p d = false) : d ∉ s := fun hm => ne_of_class (h d hm) hd rfl

theorem eq_false_of_class {q : Char → Bool} {signs : List Char} (hq : q c → c ∈ signs) (hc : p c)
    (hp : ∀ d ∈ signs, p d = false) : q c = false :=
  eq_false_iff.mpr fun h => ne_of_class hc (hp c (hq h)) rfl

theorem isBlank_eq_false_of_class (hc : p c)
    (hp : ∀ d ∈ [' ', '\t', '\n', '\r', '\x0b', '\x0c'], p d = false) : Text.isBlank c = false :=
  eq_false_of_class (by simp [isBlank, or_assoc]) hc hp

theorem endMark_signs : endMark.trim.has sign = false ∧ isCompound endMark = false ∧
    "import ".toList.isPrefixOf endMark = false ∧ endMark.has "TemplateEngine" = false ∧
      endMark.trim.hasChar '.' = false := by
  decide

theorem isBlank_eq_false_of_isAlphanum (h : c.isAlphanum) :
    Text.isBlank c = false := isBlank_eq_false_of_class h (by decide)

theorem isBlank_eq_false_of_isWordChar (h : isWordChar c) :
    Text.isBlank c = false := isBlank_eq_false_of_class h (by decide)

theorem mapM_eq_ok_self {α : Type} {f : α → Except Fault α} {l : List α}
    (h : ∀ a ∈ l, f a = .ok a) : l.mapM f = .ok l := by
  induction l with
  | nil => rfl
  | cons a l ih =>
    rw [mapM_cons, h a mem_cons_self, ih (forall_mem_cons.mp h).2]
    rfl

/-! ## Attribute lists -/

namespace Text

theorem isNumber_quote_cons (s : Text) : isNumber ('"' :: s) = false := by
  have htrim : trim ('"' :: s) = '"' :: trimRight s := trimRight_append_cons rfl [] s
  have hlow : toLower ('"' :: trimRight s) = '"' :: toLower (trimRight s) := by simp [toLower]
  rw [isNumber, Decimal.read?, htrim]
  simp [takeSign, hlow, Decimal.readUnsigned?]

end Text

namespace Attributes

/-- An attribute that the reader takes as it stands. -/
structure Simple (p : Text) : Prop where
  solid : Text.Solid p
  signs : ∀ c ∈ p, c ≠ ',' ∧ c ≠ '(' ∧ c ≠ ')' ∧ c ≠ '[' ∧ c ≠ '\'' ∧ c ≠ '\n'
  quotes : p.count '"' % 2 = 0
  head : p.head? ≠ some '"'
  expand : expand p = .ok p

variable {p n b r tail a v : Text} {ps raws : List Text}

theorem Simple.after (h : Simple p) : Open.after {} p = .ok {} := by
  obtain ⟨c, hc, _⟩ := h.solid.head
  obtain ⟨d, hd, _⟩ := h.solid.last
  have hbracket : c ≠ '[' := (h.signs c (mem_of_mem_head? hc)).2.2.2.1
  have hsingle : p.count '\'' = 0 := count_eq_zero.mpr fun m => (h.signs _ m).2.2.2.2.1 rfl
  simp [Open.after, hc, hd, h.quotes, hsingle, hbracket]

theorem Simple.unquoteName (h : Simple p) : unquoteName p = p := by
  obtain ⟨c, hc, _⟩ := h.solid.head
  obtain ⟨s, rfl⟩ := head?_eq_some_iff.mp hc
  have hdouble : c ≠ '"' := fun e => h.head (by simp [e])
  have hsingle : c ≠ '\'' := (h.signs c mem_cons_self).2.2.2.2.1
  simp [Attributes.unquoteName, hasQuotedName, isQuote, hdouble, hsingle]

/-- An attribute that the reader gives back. -/
structure Whole (p : Text) : Prop where
  solid : Text.Solid p
  comma : ',' ∉ p
  feed : '\n' ∉ p
  after : Open.after {} p = .ok {}
  expand : Attributes.expand p = .ok p
  unquoteName : Attributes.unquoteName p = p

theorem Simple.whole (h : Simple p) : Whole p :=
  ⟨h.solid, fun hm => (h.signs _ hm).1 rfl, fun hm => (h.signs _ hm).2.2.2.2.2 rfl, h.after, h.expand,
    h.unquoteName⟩

/-- One piece more: it is put behind what waits for it, and what waits for nothing any more is an
attribute. -/
theorem collect_cons_of_after {o o' : Open} (h : o.after r.trim = .ok o') (buffer : Text) (rs : List Text) :
    collect o buffer (r :: rs) = let buffer' := if o.isClosed then r.trim else buffer ++ ',' :: r
      if o'.isClosed then (collect o' buffer' rs).map (buffer'.trim :: ·) else collect o' buffer' rs := by
  simp only [collect, h]
  generalize (if o.isClosed then r.trim else buffer ++ ',' :: r) = buffer'
  change (collect o' buffer' rs >>= fun more => pure (if o'.isClosed then _ else _)) = _
  cases o'.isClosed <;> cases collect o' buffer' rs <;> rfl

theorem collect_piece (hsolid : Text.Solid r.trim) (hafter : Open.after {} r.trim = .ok {})
    (buffer : Text) (rs : List Text) :
    collect {} buffer (r :: rs) = (collect {} r.trim rs).map (r.trim :: ·) := by
  have hstep := collect_cons_of_after hafter buffer rs
  rwa [show Open.isClosed {} from rfl, if_pos rfl, if_pos rfl, hsolid.trim_eq] at hstep

theorem collect_whole (h : ∀ r ∈ raws, Whole r.trim) (buffer : Text) :
    collect {} buffer raws = .ok (raws.map trim) := by
  induction raws generalizing buffer with
  | nil => rfl
  | cons r rs ih =>
    have hr := h r mem_cons_self
    rw [collect_piece hr.solid hr.after, ih (forall_mem_cons.mp h).2]
    rfl

theorem inParentheses?_append {inside : Text} (hn : '(' ∉ n) (hi : '\n' ∉ inside)
    (ht : '\n' ∉ tail) (hc : ')' ∉ tail) :
    inParentheses? (n ++ '(' :: (inside ++ ')' :: tail)) = some inside := by
  induction n with
  | nil =>
    have hline : (inside ++ ')' :: tail).takeWhile (· != '\n') = inside ++ ')' :: tail := by
      refine takeWhile_eq_self_iff.mpr fun c hcm => ?_
      rcases mem_append.mp hcm with hm | hm
      · simpa using fun e : c = '\n' => hi (e ▸ hm)
      · rcases mem_cons.mp hm with rfl | hm
        · decide
        · simpa using fun e : c = '\n' => ht (e ▸ hm)
    simp [inParentheses?, hline, cutLast?_append_cons hc]
  | cons c n ih =>
    have hne : c ≠ '(' := fun e => hn (e ▸ mem_cons_self)
    have hn' : '(' ∉ n := fun m => hn (.tail _ m)
    simpa [inParentheses?, hne] using ih hn'

theorem comma_not_mem_spaces (hb : ∀ c ∈ b, c = ' ') : ',' ∉ b := fun hm => absurd (hb _ hm) (by decide)

theorem splitAtChar_join_flatMap (b p : Text) (ps : List Text) :
    splitAtChar (join (',' :: b) (p :: ps)) ',' =
      p.splitAtChar ',' ++ ps.flatMap fun q => splitAtChar (b ++ q) ',' := by
  induction ps generalizing p with
  | nil => simp [join]
  | cons q ps ih =>
    have hcut : join (',' :: b) (p :: q :: ps) = p ++ ',' :: join (',' :: b) ((b ++ q) :: ps) := by
      cases ps <;> simp [join]
    rw [hcut, splitAtChar, pieces_append_separator (by rfl), ← splitAtChar, ← splitAtChar, ih, flatMap_cons]

theorem splitAtChar_join (hb : ',' ∉ b) (h : ∀ q ∈ p :: ps, ',' ∉ q) :
    splitAtChar (join (',' :: b) (p :: ps)) ',' = p :: ps.map (b ++ ·) := by
  have hrest : (ps.flatMap fun q => splitAtChar (b ++ q) ',') = ps.map (b ++ ·) := by
    rw [map_eq_flatMap]
    refine flatMap_congr fun q hq => splitAtChar_of_not_mem ?_
    rw [mem_append]
    exact not_or.mpr ⟨hb, h q (.tail _ hq)⟩
  rw [splitAtChar_join_flatMap, hrest, splitAtChar_of_not_mem (h p mem_cons_self)]
  rfl

theorem join_comma (b p : Text) (ps : List Text) :
    join (',' :: b) (p :: ps) = join [','] (p :: ps.map (b ++ ·)) := by
  induction ps generalizing p with
  | nil => rfl
  | cons q ps ih =>
    rw [map_cons, join_cons_cons, join_cons_cons, ih]
    cases ps <;> simp [join]

section Pieces
variable (hn : '(' ∉ n) (ht : '\n' ∉ tail) (hc : ')' ∉ tail)
include hn ht hc

/-- A list of attributes is read back, whatever blanks stand around them. -/
theorem read_pieces (h : ∀ r ∈ raws, ',' ∉ r ∧ '\n' ∉ r ∧ Whole r.trim) :
    read (n ++ '(' :: (join [','] raws ++ ')' :: tail)) = .ok (raws.map trim) := by
  have hnl : '\n' ∉ join [','] raws := by
    intro hm
    rcases mem_join hm with hs | ⟨r, hr, hm⟩
    · exact absurd (mem_singleton.mp hs) (by decide)
    · exact (h r hr).2.1 hm
  rw [read, inParentheses?_append hn hnl ht hc]
  cases raws with
  | nil => rfl
  | cons r rs =>
    have hsplit : splitAtChar (join [','] (r :: rs)) ',' = r :: rs := by
      simpa using splitAtChar_join (b := []) not_mem_nil fun q hq => (h q hq).1
    have hne : join [','] (r :: rs) ≠ [] := by
      have hr : r ≠ [] := by
        rintro rfl
        exact (h [] mem_cons_self).2.2.solid.ne_nil rfl
      cases rs <;> simp [join, hr]
    have hread : ((r :: rs).map trim).mapM (fun a => do return unquoteName (← expand a)) =
        .ok ((r :: rs).map trim) := by
      refine mapM_eq_ok_self fun q hq => ?_
      obtain ⟨s, hs, rfl⟩ := mem_map.mp hq
      rw [(h s hs).2.2.expand]
      exact congrArg Except.ok (h s hs).2.2.unquoteName
    split
    · contradiction
    · simp_all
    · rename_i inside _ heq
      obtain rfl : join [','] (r :: rs) = inside := Option.some.inj heq
      rw [hsplit, collect_whole fun q hq => (h q hq).2.2]
      exact hread

theorem read_whole (hb : ∀ c ∈ b, c = ' ') (hps : ∀ p ∈ ps, Whole p) :
    read (n ++ '(' :: (join (',' :: b) ps ++ ')' :: tail)) = .ok ps := by
  have hblank : ∀ c ∈ b, Text.isBlank c := fun c hm => by rw [hb c hm]; rfl
  have hsign : ∀ c, c ≠ ' ' → c ∉ b := fun c hc hm => hc (hb c hm)
  cases ps with
  | nil => exact read_pieces hn ht hc (forall_mem_nil _)
  | cons p ps =>
    have hp := hps p mem_cons_self
    have htrim : ∀ q ∈ ps, (b ++ q).trim = q := by
      intro q hq
      simpa using trim_append_solid (b := []) hblank (by simp) (hps q (.tail _ hq)).solid
    have hmap : (p :: ps.map (b ++ ·)).map trim = p :: ps := by
      rw [map_cons, hp.solid.trim_eq, map_map]
      congr 1
      conv_rhs => rw [← map_id ps]
      exact map_congr_left htrim
    rw [join_comma, read_pieces hn ht hc, hmap]
    intro r hr
    rcases mem_cons.mp hr with rfl | hr
    · rw [hp.solid.trim_eq]
      exact ⟨hp.comma, hp.feed, hp⟩
    · obtain ⟨q, hq, rfl⟩ := mem_map.mp hr
      have hwhole := hps q (.tail _ hq)
      rw [htrim q hq]
      exact ⟨by simp [hsign, hwhole.comma], by simp [hsign, hwhole.feed], hwhole⟩

theorem read_join (hb : ∀ c ∈ b, c = ' ') (hps : ∀ p ∈ ps, Simple p) :
    read (n ++ '(' :: (join (',' :: b) ps ++ ')' :: tail)) = .ok ps :=
  read_whole hn ht hc hb fun p hp => (hps p hp).whole

end Pieces

theorem simple_of_class (class? : Char → Bool) (hne : p ≠ []) (h : ∀ c ∈ p, class? c)
    (hclass : ∀ d ∈ [' ', '\t', '\n', '\r', '\x0b', '\x0c', ',', '(', ')', '[', '\'', '"', '=', '.'],
      class? d = false) : Simple p := by
  have hsign : ∀ d ∈ [' ', '\t', '\n', '\r', '\x0b', '\x0c', ',', '(', ')', '[', '\'', '"', '=', '.'],
      d ∉ p := fun d hd => not_mem_of_all h (hclass d hd)
  have hsolid : Text.Solid p := solid_of_forall hne fun c hc =>
    isBlank_eq_false_of_class (h c hc) fun d hd => hclass d (by
      simp only [mem_cons, not_mem_nil, or_false] at hd ⊢
      tauto)
  refine ⟨hsolid, ?_, ?_, ?_, ?_⟩
  · intro c hc
    refine ⟨?_, ?_, ?_, ?_, ?_, ?_⟩ <;> rintro rfl <;> exact hsign _ (by decide) hc
  · rw [count_eq_zero.mpr (hsign _ (by decide))]
  · exact fun hm => hsign _ (by decide) (mem_of_mem_head? hm)
  · have heq : p.splitAtChar '=' = [p] := pieces_of_forall_not fun c hc => by
      simpa using fun e : c = '=' => hsign _ (by decide) (e ▸ hc)
    cases p with
    | nil => contradiction
    | cons c s =>
      have hdot : c ≠ '.' := fun e => hsign '.' (by decide) (e ▸ mem_cons_self)
      simp [expand, hsolid.trim_eq, hdot, heq]

theorem simple_of_forall (hne : p ≠ []) (h : ∀ c ∈ p, (isWordChar c || c == '$')) : Simple p :=
  simple_of_class (fun c => isWordChar c || c == '$') hne h (by decide)

theorem simple_of_isBareWord {w : Text} (h : isBareWord w) : Simple w := by
  simp only [isBareWord, and_eq_true, not_eq_true', isEmpty_eq_false_iff, all_eq_true] at h
  exact simple_of_forall h.1 fun c hc => by simp [h.2 c hc]

theorem attributeText_eq (a v : Text) : Markup.attributeText (a, v) = a ++ '=' :: '"' :: (v ++ ['"']) := by
  simp [Markup.attributeText]

theorem mem_attributeText {c : Char} (h : c ∈ Markup.attributeText (a, v)) :
    c ∈ a ∨ c ∈ v ∨ c = '=' ∨ c = '"' := by
  simp only [attributeText_eq, mem_append, mem_cons, not_mem_nil, or_false] at h
  tauto

/-- A value in quotes under a name is taken as it stands. -/
theorem simple_quoted {w : Text} (ha : a.isAlphanumeric)
    (hsigns : ∀ d ∈ w, d ≠ ',' ∧ d ≠ '(' ∧ d ≠ ')' ∧ d ≠ '[' ∧ d ≠ '\'' ∧ d ≠ '\n')
    (hquotes : w.count '"' % 2 = 0) : Simple (a ++ '=' :: '"' :: (w ++ ['"'])) := by
  obtain ⟨hne, hall⟩ := (isAlphanumeric_iff a).mp ha
  obtain ⟨c, r, rfl⟩ := exists_cons_of_ne_nil hne
  have hc := hall c mem_cons_self
  have hsolid : Text.Solid (c :: r ++ '=' :: '"' :: (w ++ ['"'])) := by
    refine ⟨⟨c, rfl, isBlank_eq_false_of_isAlphanum hc⟩, '"', ?_, rfl⟩
    rw [← cons_append, ← cons_append, ← append_assoc, getLast?_concat]
  refine ⟨hsolid, fun d hd => ?_, ?_, ?_, ?_⟩
  · simp only [mem_append, mem_cons (a := d), not_mem_nil, or_false] at hd
    rcases hd with hd | rfl | rfl | hd | rfl
    · have hd := hall d (mem_cons.mpr hd)
      refine ⟨?_, ?_, ?_, ?_, ?_, ?_⟩ <;> exact ne_of_class hd (by decide)
    · decide
    · decide
    · exact hsigns d hd
    · decide
  · have hname : (c :: r).count '"' = 0 := count_eq_zero.mpr (not_mem_of_all hall (by decide))
    rw [count_append, hname]
    simp only [count_cons, count_append, count_nil, beq_iff_eq, Char.reduceEq, if_false,
      beq_self_eq_true, if_true]
    omega
  · have hq : c ≠ '"' := ne_of_class hc (by decide)
    simpa using hq
  · obtain ⟨v, vs, hvalue⟩ : ∃ v vs, splitAtChar ('"' :: (w ++ ['"'])) '=' = ('"' :: v) :: vs := by
      rw [splitAtChar, pieces, if_neg (by decide : ¬ ('"' == '=') = true)]
      cases hp : pieces (· == '=') (w ++ ['"']) with
      | nil => exact ⟨[], [], rfl⟩
      | cons v vs => exact ⟨v, vs, rfl⟩
    have hsplit := splitAtChar_append_cons (not_mem_of_all hall (d := '=') (by decide)) ('"' :: (w ++ ['"']))
    have hdot : (c == '.') = false := beq_eq_false_iff_ne.mpr (ne_of_class hc (by decide))
    rw [expand, hsolid.trim_eq]
    rw [hvalue, cons_append] at hsplit
    simp [hdot, hsplit, isNumber_quote_cons]

theorem simple_attributeText (ha : a.isAlphanumeric)
    (hv : v.all isValueChar) : Simple (Markup.attributeText (a, v)) := by
  have hvalue : ∀ d ∈ v, isValueChar d := all_eq_true.mp hv
  rw [attributeText_eq]
  refine simple_quoted ha (fun d hd => ?_) ?_
  · refine ⟨?_, ?_, ?_, ?_, ?_, ?_⟩ <;> exact ne_of_class (hvalue d hd) (by decide)
  · rw [count_eq_zero.mpr (not_mem_of_all hvalue (by decide))]

end Attributes

/-! ## Lines that are markup -/

/-- Every equals sign follows a letter or a digit, so that it assigns nothing. -/
abbrev EqualsAfterWord (s : Text) : Prop := s.IsChain fun a b => b = '=' → a.isAlphanum = true

theorem equalsAfterWord_of_not_mem (h : '=' ∉ s) : EqualsAfterWord s := by
  induction s with
  | nil => exact .nil
  | cons c s ih =>
    have hs : '=' ∉ s := fun m => h (.tail _ m)
    refine (ih hs).cons fun d hd heq => ?_
    exact absurd (mem_of_mem_head? hd) (heq ▸ hs)

theorem EqualsAfterWord.append (hs : EqualsAfterWord s) (ht : EqualsAfterWord t)
    (h : t.head? ≠ some '=') : EqualsAfterWord (s ++ t) :=
  IsChain.append hs ht fun _ _ _ hb heq => absurd (heq ▸ hb) h

theorem EqualsAfterWord.has_eq_false (h : EqualsAfterWord s)
    (hc : c.isAlphanum = false) : s.has [c, '='] = false := by
  rw [has_eq_false_iff]
  intro hi
  have hpair : IsChain _ [c, '='] := h.infix hi
  rw [isChain_pair.mp hpair rfl] at hc
  exact noConfusion hc

theorem shorthand_append {a : Text} (ha : '[' ∉ a) (hs : expandFrom 0 s = .ok s) :
    expandFrom 0 (a ++ s) = .ok (a ++ s) := by
  induction a with
  | nil => exact hs
  | cons c a ih =>
    have hc : c ≠ '[' := fun h => ha (h ▸ mem_cons_self)
    have hread : read? (c :: (a ++ s)) = none := by
      unfold read?
      split
      · rename_i heq
        exact absurd (cons.inj heq).1 hc
      · rfl
    rw [cons_append, expandFrom, hread, ih fun h => ha (.tail _ h)]
    rfl

theorem shorthand_eq_self (h : '[' ∉ s) : Shorthand.expand s = .ok s := by
  have hall := shorthand_append (s := []) h rfl
  rwa [append_nil] at hall

/-- Text that assigns and imports nothing, and starts neither a loop nor a method. -/
structure Steady (tag : Text) : Prop where
  head : ∃ c, tag.head? = some c ∧ (Text.isWordChar c = true ∨ c = '"')
  last : ∃ c, tag.getLast? = some c ∧ Text.isBlank c = false
  word : (tag.dropWhile Char.isAlphanum).head? ≠ some ' '
  signs : ∀ c ∈ tag, c ≠ '[' ∧ c ≠ ']' ∧ c ≠ '.' ∧ c ≠ '\n' ∧ c ≠ '\\'
  equals : EqualsAfterWord tag

/-- Text that is neither a declaration nor the start of a loop or a method. -/
structure Calm (tag : Text) : Prop extends Steady tag where
  unreserved : isUnreserved tag = true
  balanced : tag.count '(' = tag.count ')'

/-- The end of a line: a line feed, or nothing at the end of the file. -/
def LineEnd (e : Text) : Prop := e = [] ∨ e = ['\n']

/-- A line of a document: markup behind some units of indentation. -/
def sourceLine (u : Text) (k : Nat) (tag e : Text) : Text := u.times k ++ (tag ++ e)

theorem LineEnd.isBlank (he : LineEnd e) : ∀ c ∈ e, isBlank c := by
  rcases he with rfl | rfl <;> simp [isBlank]

theorem LineEnd.not_mem (he : LineEnd e) (hc : c ≠ '\n') : c ∉ e := by
  rcases he with rfl | rfl <;> simp [hc]

theorem isUnit_iff (u : Text) : isUnit u ↔ u ≠ [] ∧ ∀ c ∈ u, c = ' ' ∨ c = '\t' := by
  simp [isUnit]

/-- A unit of indentation as a line may set it: blanks that start with a space or a tab. -/
structure Indents (u : Text) : Prop where
  head : u.head? = some ' ' ∨ u.head? = some '\t'
  blank : ∀ c ∈ u, Text.isBlank c = true

namespace Indents
variable {u : Text} {k : Nat} (h : Indents u)
include h

theorem ne_nil : u ≠ [] := by
  rintro rfl
  rcases h.head with h | h <;> cases h

theorem blank_times : ∀ c ∈ u.times k, isBlank c := fun c hc => h.blank c (mem_times hc)

theorem not_mem_times {c : Char} (hc : isBlank c = false) : c ∉ u.times k := by
  intro hm
  rw [h.blank_times c hm] at hc
  exact noConfusion hc

end Indents

theorem indents_of_isUnit (hu : isUnit u) : Indents u := by
  obtain ⟨hne, hall⟩ := (isUnit_iff u).mp hu
  obtain ⟨c, r, rfl⟩ := exists_cons_of_ne_nil hne
  refine ⟨?_, fun d hd => ?_⟩
  · rcases hall c mem_cons_self with rfl | rfl
    · exact .inl rfl
    · exact .inr rfl
  · rcases hall d hd with rfl | rfl <;> rfl

theorem isBlank_of_mem_times (hu : isUnit u) :
    ∀ c ∈ u.times k, isBlank c := (indents_of_isUnit hu).blank_times

theorem not_mem_times (hu : isUnit u)
    (hc : isBlank c = false) : c ∉ u.times k := (indents_of_isUnit hu).not_mem_times hc

theorem feed_not_mem_times (hu : isUnit u) : '\n' ∉ u.times k := by
  intro hm
  rcases ((isUnit_iff u).mp hu).2 _ (mem_times hm) with h | h <;> exact absurd h (by decide)

theorem isUnreserved_of_isInfix (h : isUnreserved t) (hst : s <:+: t) : isUnreserved s := by
  simp only [isUnreserved, and_eq_true, not_eq_true'] at h ⊢
  exact ⟨⟨has_eq_false_of_isInfix h.1.1 hst, has_eq_false_of_isInfix h.1.2 hst⟩,
    has_eq_false_of_isInfix h.2 hst⟩

theorem isUnreserved_append_cons (hc : isWordChar c = false)
    (hs : isUnreserved s) (ht : isUnreserved t) : isUnreserved (s ++ c :: t) := by
  have hpart : ∀ part : Text, (∀ d ∈ part, isWordChar d) → s.has part = false →
      t.has part = false → (s ++ c :: t).has part = false := by
    intro part hword hs ht
    rw [has_eq_false_iff] at hs ht ⊢
    intro hoccurs
    have hcpart : c ∉ part := fun hm => by
      rw [hword c hm] at hc
      exact noConfusion hc
    rcases infix_append_cons hcpart hoccurs with hoccurs | hoccurs
    · exact hs hoccurs
    · exact ht hoccurs
  simp only [isUnreserved, and_eq_true, not_eq_true'] at hs ht ⊢
  exact ⟨⟨hpart _ (by decide) hs.1.1 ht.1.1, hpart _ (by decide) hs.1.2 ht.1.2⟩,
    hpart _ (by decide) hs.2 ht.2⟩

theorem has_sourceLine_eq_false {part : Text} (hne : part ≠ [])
    (hpart : ∀ c ∈ part, isBlank c = false) (h : tag.has part = false) (hu : isUnit u)
    (he : LineEnd e) : (sourceLine u k tag e).has part = false := by
  rw [has_eq_false_iff] at h ⊢
  intro hi
  refine h (infix_of_infix_append_right hne (fun c hc => ?_)
    (infix_of_infix_append_left hne (fun c hc => ?_) hi))
  · exact he.not_mem (ne_of_class (p := (!Text.isBlank ·)) (by simp [hpart c hc]) (by decide))
  · exact not_mem_times hu (hpart c hc)

theorem hasEngine_eq_false (h : tag.has "TemplateEngine" = false)
    (hu : isUnit u) (he : LineEnd e) : (sourceLine u k tag e).has "TemplateEngine" = false :=
  has_sourceLine_eq_false (by decide) (by decide) h hu he

theorem declaresVerbatim_of_has (hv : tag.has "verbatim" = false)
    (hc : tag.has "code_block" = false) : declaresVerbatim tag = false := by
  rw [declaresVerbatim, ← Bool.not_eq_true, any_eq_true]
  rintro ⟨w, hw, heq⟩
  have hinf := infix_of_mem_pieces hw
  simp only [Bool.or_eq_true, beq_iff_eq] at heq
  rcases heq with (rfl | rfl) | rfl
  · exact (has_eq_false_iff _ _).mp hv hinf
  · refine (has_eq_false_iff _ _).mp hv (IsInfix.trans ?_ hinf)
    exact ⟨[], "_line", rfl⟩
  · exact (has_eq_false_iff _ _).mp hc hinf

theorem declaresVerbatim_eq_false (hun : isUnreserved tag) : declaresVerbatim tag = false := by
  simp only [isUnreserved, and_eq_true, not_eq_true'] at hun
  exact declaresVerbatim_of_has hun.1.1 hun.1.2

theorem Text.Solid.trim_sourceLine (h : Solid tag) (hu : isUnit u)
    (he : LineEnd e) : (sourceLine u k tag e).trim = tag :=
  trim_append_solid (isBlank_of_mem_times hu) he.isBlank h

namespace Steady
variable {u tag e : Text} {k : Nat}

section Steady
variable (h : Steady tag)
include h

theorem solid : Solid tag := by
  refine ⟨?_, h.last⟩
  obtain ⟨c, hc, hletter | rfl⟩ := h.head
  · exact ⟨c, hc, isBlank_eq_false_of_isWordChar hletter⟩
  · exact ⟨_, hc, rfl⟩

variable {c : Char}

theorem not_mem (hc : c ∈ ['[', ']', '.', '\n', '\\']) : c ∉ tag := by
  intro hm
  have hs := h.signs c hm
  simp only [mem_cons, not_mem_nil, or_false] at hc
  tauto

theorem head?_ne (ha : isWordChar c = false) (hq : c ≠ '"') : tag.head? ≠ some c := by
  intro hc
  obtain ⟨d, hd, hletter | rfl⟩ := h.head
  · rw [hc] at hd
    obtain rfl := Option.some.inj hd
    rw [ha] at hletter
    exact noConfusion hletter
  · rw [hc] at hd
    exact hq (Option.some.inj hd)

theorem trim_sourceLine (hu : isUnit u) (he : LineEnd e) :
    (sourceLine u k tag e).trim = tag := h.solid.trim_sourceLine hu he

theorem leading_sourceLine (hu : isUnit u) : Indentation.leading (sourceLine u k tag e) = u.times k :=
  takeWhile_append_solid (isBlank_of_mem_times hu) h.solid

theorem not_mem_sourceLine (hu : isUnit u) (he : LineEnd e) (hc : c ∈ ['[', ']', '.', '\\']) :
    c ∉ sourceLine u k tag e := by
  have htag : c ∉ tag := h.not_mem (by simp only [mem_cons] at hc ⊢; tauto)
  have hblank : isBlank c = false := by
    simp only [mem_cons, not_mem_nil, or_false] at hc
    rcases hc with rfl | rfl | rfl | rfl <;> rfl
  have hnl : c ≠ '\n' := by
    rintro rfl
    exact noConfusion hblank
  simp [sourceLine, not_mem_times hu hblank, htag, he.not_mem hnl]

theorem equals_sourceLine (hu : isUnit u) (he : LineEnd e) : EqualsAfterWord (sourceLine u k tag e) := by
  have hend : EqualsAfterWord e := equalsAfterWord_of_not_mem (he.not_mem (by decide))
  have hstart : EqualsAfterWord (u.times k) := equalsAfterWord_of_not_mem (not_mem_times hu rfl)
  have htag : EqualsAfterWord (tag ++ e) := h.equals.append hend (by rcases he with rfl | rfl <;> simp)
  refine hstart.append htag ?_
  rw [head?_append_of_ne_nil _ h.solid.ne_nil]
  exact h.head?_ne rfl (by decide)

theorem expand_sourceLine (hu : isUnit u) (he : LineEnd e) :
    Shorthand.expand (sourceLine u k tag e) = .ok (sourceLine u k tag e) :=
  shorthand_eq_self (h.not_mem_sourceLine hu he (by simp))

theorem hasSign_sourceLine (hu : isUnit u) (he : LineEnd e) : (sourceLine u k tag e).has sign = false :=
  (h.equals_sourceLine hu he).has_eq_false (by decide)

theorem hasSign : tag.has sign = false := h.equals.has_eq_false (by decide)

theorem isCompound_sourceLine (hu : isUnit u) (he : LineEnd e) :
    isCompound (sourceLine u k tag e) = false := by
  have hop : ∀ c : Char, c.isAlphanum = false → (sourceLine u k tag e).has [c, '='] = false :=
    fun c hc => (h.equals_sourceLine hu he).has_eq_false hc
  simp [isCompound, operators, hop]

omit h in
theorem isBlank_of_head?_indented (hu : isUnit u) (hc : (sourceLine u (k + 1) tag e).head? = some c) :
    isBlank c := by
  obtain ⟨d, v, rfl⟩ := exists_cons_of_ne_nil ((isUnit_iff u).mp hu).1
  have hd : d = c := by simpa [sourceLine, times_succ] using hc
  exact hd ▸ isBlank_of_mem_times (k := 1) hu d (by simp)

theorem word_sourceLine (hu : isUnit u) (he : LineEnd e) {w : Text} (hne : w ≠ [])
    (hw : ∀ c ∈ w, c.isAlphanum) : (w ++ [' ']).isPrefixOf (sourceLine u k tag e) = false := by
  rw [← Bool.not_eq_true, isPrefixOf_iff_prefix]
  rintro ⟨rest, hrest⟩
  cases k with
  | zero =>
    have hdrop : ((tag ++ e).dropWhile Char.isAlphanum).head? = some ' ' := by
      have hline : tag ++ e = w ++ (' ' :: rest) := by simpa [sourceLine] using hrest.symm
      rw [hline, dropWhile_append_of_pos hw]
      rfl
    rw [dropWhile_append] at hdrop
    split at hdrop
    · rcases he with rfl | rfl <;> simp at hdrop
    · rename_i hnil
      rw [head?_append_of_ne_nil _ (by rintro e; simp [e] at hnil)] at hdrop
      exact h.word hdrop
  | succ k =>
    obtain ⟨c, r, rfl⟩ := exists_cons_of_ne_nil hne
    have hblank : isBlank c := isBlank_of_head?_indented hu (congrArg head? hrest).symm
    rw [isBlank_eq_false_of_isAlphanum (hw c mem_cons_self)] at hblank
    exact noConfusion hblank

theorem isMethodStart_sourceLine (hu : isUnit u) (he : LineEnd e) :
    isMethodStart (sourceLine u k tag e) = false :=
  h.word_sourceLine (w := "def") hu he (by decide) (by decide)

theorem isImport_sourceLine (hu : isUnit u) (he : LineEnd e) :
    "import ".toList.isPrefixOf (sourceLine u k tag e) = false :=
  h.word_sourceLine (w := "import") hu he (by decide) (by decide)

theorem isLoopStart : Compile.isLoopStart tag = false := by
  have := h.word_sourceLine (u := " ") (k := 0) (e := []) (w := "for") rfl (.inl rfl)
    (by decide) (by decide)
  simpa [sourceLine, Compile.isLoopStart] using this

theorem ne_endMark (hu : isUnit u) : sourceLine u k tag e ≠ endMark := by
  intro heq
  have hhead : (sourceLine u k tag e).head? = some '!' := by rw [heq]; rfl
  cases k with
  | zero =>
    have htag : tag.head? = some '!' := by
      rw [← hhead, sourceLine, times_zero, nil_append, head?_append_of_ne_nil _ h.solid.ne_nil]
    exact h.head?_ne rfl (by decide) htag
  | succ k => exact absurd (isBlank_of_head?_indented hu hhead) (by decide)

end Steady

end Steady

namespace Calm
variable {u tag e : Text} {k : Nat}

theorem declaresVerbatim (h : Calm tag) : declaresVerbatim tag = false :=
  declaresVerbatim_eq_false h.unreserved

theorem hasEngine_sourceLine (h : Calm tag) (hu : isUnit u) (he : LineEnd e) :
    (sourceLine u k tag e).has "TemplateEngine" = false := by
  have hun := h.unreserved
  simp only [isUnreserved, and_eq_true, not_eq_true'] at hun
  exact hasEngine_eq_false hun.2 hu he

end Calm
end OutlineMarkup
