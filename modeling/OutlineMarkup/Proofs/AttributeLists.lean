import OutlineMarkup.Proofs.Reading

/-!
# Lists of attributes

An attribute is a word, a class in its short form, a name with a number or with a quoted value, or an
array of words. A list of them is split at all its commas, also at those inside quotes and brackets,
and the pieces are put together again. The module says that this gives back the attributes, each in
full, and that the attributes in full are given back as they are.
-/

namespace OutlineMarkup
open List Text Attributes Decimal
variable {v name : Text}

open Bool (and_eq_true)

/-- Digits and at most one point, at least one digit. -/
def isUnsignedDecimal (x : Text) : Bool :=
  x.all (fun c => c.isDigit || c == '.') && x.any Char.isDigit && decide (x.count '.' ≤ 1)

/-- A decimal number, which may have a sign. -/
def isDecimal : Text → Bool
  | '-' :: x => isUnsignedDecimal x
  | '+' :: x => isUnsignedDecimal x
  | x => isUnsignedDecimal x

/-- No quotes, backslashes and line feeds, and no blanks next to commas. -/
def isAttributeValue (v : Text) : Bool :=
  v.all (fun c => !Text.isQuote c && c != '\\' && c != '\n') &&
    decide (v.IsChain fun c d => (c = ',' → Text.isBlank d = false) ∧ (d = ',' → Text.isBlank c = false))

inductive Attribute where
  | word (w : Text)
  /-- A class. -/
  | shorthand (w : Text)
  | number (name number : Text)
  | quoted (name value : Text)
  | array (words : List Text)
  deriving Repr, DecidableEq

namespace Attribute

def source : Attribute → Text
  | word w => w
  | shorthand w => '.' :: w
  | number name x => name ++ '=' :: x
  | quoted name value => name ++ '=' :: '"' :: (value ++ ['"'])
  | array words => '[' :: (Text.join ", " words ++ [']'])

def full : Attribute → Attribute
  | shorthand w => quoted "class" w
  | number name x => quoted name x
  | a => a

def isSound : Attribute → Bool
  | word w => isBareWord w
  | shorthand w => isBareWord w
  | number name x => isBareWord name && isDecimal x
  | quoted name value => isBareWord name && isAttributeValue value
  | array words => words.all isBareWord

/-! ## Attributes in full -/

@[simp] theorem full_full (a : Attribute) : a.full.full = a.full := by cases a <;> rfl

theorem mem_of_isBareWord {w : Text} (h : isBareWord w) : ∀ c ∈ w, isWordChar c := by
  rw [isBareWord, and_eq_true, all_eq_true] at h
  exact h.2

theorem isAttributeValue_of_class (class? : Char → Bool) (hv : ∀ c ∈ v, class? c)
    (hclass : ∀ d ∈ ['"', '\'', '\\', '\n', ','], class? d = false) : isAttributeValue v := by
  have hsign : ∀ d ∈ ['"', '\'', '\\', '\n', ','], d ∉ v := fun d hd => not_mem_of_all hv (hclass d hd)
  simp only [isAttributeValue, and_eq_true, all_eq_true, decide_eq_true_eq, isQuote,
    Bool.not_eq_true', Bool.or_eq_false_iff, beq_eq_false_iff_ne, bne_iff_ne]
  refine ⟨fun c hc => ⟨⟨⟨?_, ?_⟩, ?_⟩, ?_⟩, ?_⟩
  · rintro rfl
    exact hsign _ (by decide) hc
  · rintro rfl
    exact hsign _ (by decide) hc
  · rintro rfl
    exact hsign _ (by decide) hc
  · rintro rfl
    exact hsign _ (by decide) hc
  · apply Pairwise.isChain
    apply pairwise_of_forall_mem_list
    intro c hc d hd
    refine ⟨?_, ?_⟩
    · rintro rfl
      exact absurd hc (hsign _ (by decide))
    · rintro rfl
      exact absurd hd (hsign _ (by decide))

def isDecimalChar (c : Char) : Bool := c.isDigit || c == '.' || c == '-' || c == '+'

theorem isDecimalChar_of_mem {x : Text} (h : isDecimal x) : ∀ c ∈ x, isDecimalChar c := by
  have hunsigned : ∀ {x : Text}, isUnsignedDecimal x → ∀ c ∈ x, isDecimalChar c := by
    intro x hx c hc
    simp only [isUnsignedDecimal, and_eq_true, all_eq_true] at hx
    simp only [isDecimalChar, Bool.or_eq_true]
    exact .inl (.inl (by simpa using hx.1.1 c hc))
  intro c hc
  unfold isDecimal at h
  split at h
  · rcases mem_cons.mp hc with rfl | hc
    · rfl
    · exact hunsigned h c hc
  · rcases mem_cons.mp hc with rfl | hc
    · rfl
    · exact hunsigned h c hc
  · exact hunsigned h c hc

theorem isSound_full {a : Attribute} (h : a.isSound) : a.full.isSound := by
  cases a with
  | word w => exact h
  | shorthand w =>
    have hvalue : isAttributeValue w := isAttributeValue_of_class isWordChar (mem_of_isBareWord h) (by decide)
    change (isBareWord "class" && isAttributeValue w)
    rw [hvalue]
    rfl
  | number name x =>
    rw [isSound, and_eq_true] at h
    have hvalue : isAttributeValue x :=
      isAttributeValue_of_class isDecimalChar (isDecimalChar_of_mem h.2) (by decide)
    change (isBareWord name && isAttributeValue x)
    rw [h.1, hvalue]
    rfl
  | quoted name value | array words => exact h

end Attribute

/-! ## Putting pieces together -/

namespace Attributes

theorem collect_closed (buffer : Text) (rs : List Text) : collect {} buffer rs = collect {} [] rs := by
  cases rs <;> rfl

/-- Whatever follows, the pieces of the text are put together to it. -/
def Collected (p : Text) : Prop :=
  ∀ (b : Text), (∀ c ∈ b, c = ' ') → ∀ (buffer : Text) (rs : List Text),
    collect {} buffer ((b ++ p).splitAtChar ',' ++ rs) = (collect {} [] rs).map (p :: ·)

variable {b p w : Text} {c m : Char}

theorem isBlank_of_spaces (hb : ∀ c ∈ b, c = ' ') : ∀ c ∈ b, isBlank c := by
  intro c hc
  rw [hb c hc]
  rfl

theorem trim_spaces (hb : ∀ c ∈ b, c = ' ') (hp : Solid p) : (b ++ p).trim = p := by
  have htrim := trim_append_solid (b := []) (isBlank_of_spaces hb) (by simp) hp
  rwa [append_nil] at htrim

theorem Collected.of_single (hsolid : Solid p) (hcomma : ',' ∉ p)
    (hafter : Open.after {} p = .ok {}) : Collected p := by
  intro b hb buffer rs
  have hfree : ',' ∉ b ++ p := by
    rw [mem_append]
    exact not_or.mpr ⟨comma_not_mem_spaces hb, hcomma⟩
  have htrim := trim_spaces hb hsolid
  have hpiece := collect_piece (r := b ++ p) (by rw [htrim]; exact hsolid) (by rw [htrim]; exact hafter)
    buffer rs
  rw [splitAtChar_of_not_mem hfree, singleton_append, hpiece, htrim, collect_closed]

theorem collect_start {o : Open} (hb : ∀ c ∈ b, c = ' ') (hsolid : Solid p)
    (hafter : Open.after {} p = .ok o) (hopen : o.isClosed = false) (buffer : Text) (rs : List Text) :
    collect {} buffer ((b ++ p) :: rs) = collect o p rs := by
  have htrim := trim_spaces hb hsolid
  have hstep := collect_cons_of_after (o := {}) (r := b ++ p) (by rw [htrim]; exact hafter) buffer rs
  rwa [show Open.isClosed {} from rfl, if_pos rfl, hopen, if_neg Bool.false_ne_true, htrim] at hstep

/-! ### Inside quotes -/

def inQuotes : Open := ⟨some '"', false⟩

theorem endsQuote_of_not_mem {piece : Text} (h : '"' ∉ piece) : Open.endsQuote '"' piece = false := by
  have hlast : ∀ c, c ∈ piece.reverse → (c == '"') = false :=
    fun c hc => beq_false_of_ne fun heq => h (heq ▸ mem_reverse.mp hc)
  rw [Open.endsQuote]
  split
  · rename_i c heq
    exact hlast c (by rw [heq]; exact mem_cons_self)
  · rename_i c d _ heq
    rw [hlast c (by rw [heq]; exact mem_cons_self)]
    rfl
  · rfl

theorem endsQuote_quoted (h : '\\' ∉ w) : Open.endsQuote '"' (trim (w ++ ['"'])) := by
  have htrim : trim (w ++ ['"']) = w.dropWhile isBlank ++ ['"'] := by
    have hleft : trimLeft (w ++ ['"']) = w.dropWhile isBlank ++ ['"'] := by
      rw [trimLeft, dropWhile_append]
      split
      · rename_i hempty
        rw [isEmpty_iff.mp hempty]
        rfl
      · rfl
    rw [trim, hleft, trimRight, dropRightWhile, reverse_append]
    change reverse ('"' :: _) = _
    simp
  have hfree : '\\' ∉ w.dropWhile isBlank := fun hm => h ((dropWhile_suffix _).subset hm)
  rw [htrim]
  generalize w.dropWhile isBlank = u at hfree
  cases hu : u.reverse with
  | nil =>
    obtain rfl : u = [] := reverse_eq_nil_iff.mp hu
    rfl
  | cons d r =>
    have hd : d ∈ u := mem_reverse.mp (by rw [hu]; exact mem_cons_self)
    have hslash : (d != '\\') := bne_iff_ne.mpr fun heq => hfree (heq ▸ hd)
    rw [Open.endsQuote, reverse_append, hu]
    change ('"' == '"' && d != '\\')
    rw [hslash]
    rfl

theorem after_inQuotes (piece : Text) :
    inQuotes.after piece = .ok (if Open.endsQuote '"' piece then {} else inQuotes) := rfl

theorem collect_inQuotes (hquote : '"' ∉ w) (hslash : '\\' ∉ w) (buffer : Text) (rs : List Text) :
    collect inQuotes buffer ((w ++ ['"']).splitAtChar ',' ++ rs) =
      (collect {} [] rs).map ((buffer ++ ',' :: (w ++ ['"'])).trim :: ·) := by
  induction hlength : w.length using Nat.strong_induction_on generalizing w buffer with
  | _ n ih =>
    subst hlength
    by_cases hcomma : ',' ∈ w
    · obtain ⟨x, y, rfl, hx⟩ := eq_append_cons_of_mem hcomma
      have hxquote : '"' ∉ x := fun hm => hquote (mem_append_left _ hm)
      have hafter : inQuotes.after (trim x) = .ok inQuotes := by
        rw [after_inQuotes, endsQuote_of_not_mem fun hm => hxquote (mem_of_mem_trim hm)]
        rfl
      have hstep := collect_cons_of_after hafter buffer (splitAtChar (y ++ ['"']) ',' ++ rs)
      have hrest := ih y.length (by simp only [length_append, length_cons]; omega)
        (fun hm => hquote (mem_append_right _ (.tail _ hm)))
        (fun hm => hslash (mem_append_right _ (.tail _ hm))) (buffer ++ ',' :: x) rfl
      have hcut : splitAtChar (x ++ ',' :: y ++ ['"']) ',' = x :: splitAtChar (y ++ ['"']) ',' := by
        rw [append_assoc]
        exact splitAtChar_append_cons hx (y ++ ['"'])
      rw [hcut, cons_append, hstep]
      change collect inQuotes (buffer ++ ',' :: x) _ = _
      rw [hrest]
      simp
    · have hfree : ',' ∉ w ++ ['"'] := by simpa using hcomma
      have hafter : inQuotes.after (trim (w ++ ['"'])) = .ok {} := by
        rw [after_inQuotes, endsQuote_quoted hslash]
        rfl
      have hstep := collect_cons_of_after hafter buffer rs
      rw [splitAtChar_of_not_mem hfree, singleton_append, hstep]
      change (collect {} (buffer ++ ',' :: (w ++ ['"'])) rs).map _ = _
      rw [collect_closed]
      rfl

/-! ### Inside brackets -/

def inBrackets : Open := ⟨none, true⟩

theorem after_of_no_quotes {o : Open} {piece : Text} {d : Char} (ho : o.quote = none)
    (hfirst : piece.head? = some c) (hlast : piece.getLast? = some d) (hdouble : '"' ∉ piece)
    (hsingle : '\'' ∉ piece) :
    o.after piece = .ok ⟨none, if d == ']' then false else if c == '[' then true else o.bracket⟩ := by
  rw [Open.after, ho, hfirst, hlast, count_eq_zero.mpr hdouble, count_eq_zero.mpr hsingle]
  rfl

theorem not_mem_word (h : isBareWord w) (hc : isWordChar c = false) :
    c ∉ w := not_mem_of_all (Attribute.mem_of_isBareWord h) hc

theorem solid_word (h : isBareWord w) : Solid w := (simple_of_isBareWord h).solid

theorem head?_word (h : isBareWord w) : ∃ c, w.head? = some c ∧ isWordChar c := by
  obtain ⟨c, hc, _⟩ := (solid_word h).head
  exact ⟨c, hc, Attribute.mem_of_isBareWord h c (mem_of_mem_head? hc)⟩

theorem getLast?_word (h : isBareWord w) : ∃ c, w.getLast? = some c ∧ isWordChar c := by
  obtain ⟨c, hc, _⟩ := (solid_word h).last
  exact ⟨c, hc, Attribute.mem_of_isBareWord h c (mem_of_mem_getLast? hc)⟩

theorem solid_marked (hm : isBlank m = false) (h : isBareWord w) : Solid (m :: w) :=
  Solid.between (a := [m]) ⟨⟨m, rfl, hm⟩, ⟨m, rfl, hm⟩⟩ [] (solid_word h)

theorem not_mem_marked (h : isBareWord w) (hc : isWordChar c = false) (hne : c ≠ m) : c ∉ m :: w := by
  rw [mem_cons]
  exact not_or.mpr ⟨hne, not_mem_word h hc⟩

theorem after_marked (hm : isQuote m = false) (h : isBareWord w) :
    Open.after {} (m :: w) = .ok ⟨none, m == '['⟩ := by
  obtain ⟨d, hd, hdw⟩ := getLast?_word h
  have hlast : (m :: w).getLast? = some d := by
    rw [getLast?_cons, hd]
    rfl
  rw [isQuote, Bool.or_eq_false_iff, beq_eq_false_iff_ne, beq_eq_false_iff_ne] at hm
  rw [after_of_no_quotes rfl rfl hlast (not_mem_marked h (by decide) hm.1.symm)
    (not_mem_marked h (by decide) hm.2.symm), beq_false_of_ne (ne_of_class hdw (by decide))]
  cases m == '[' <;> rfl

theorem collect_inBrackets {ws : List Text} (h : ∀ x ∈ w :: ws, isBareWord x)
    (buffer : Text) (rs : List Text) :
    collect inBrackets buffer (splitAtChar (' ' :: (join ", " (w :: ws) ++ [']'])) ',' ++ rs) =
      (collect {} [] rs).map (trim (buffer ++ ',' :: ' ' :: (join ", " (w :: ws) ++ [']'])) :: ·) := by
  have hspace : ∀ c ∈ [' '], c = ' ' := by decide
  induction ws generalizing w buffer with
  | nil =>
    have hw := h w mem_cons_self
    obtain ⟨c, hc, _⟩ := head?_word hw
    have hfirst : (w ++ [']']).head? = some c := by
      rw [head?_append, hc]
      rfl
    have hsolid : Solid (w ++ [']']) := (solid_word hw).between [] ⟨⟨']', rfl, rfl⟩, ⟨']', rfl, rfl⟩⟩
    have hfree : ∀ d, isWordChar d = false → d ≠ ']' → d ∉ w ++ [']'] := by
      intro d hd hne
      rw [mem_append, mem_singleton]
      exact not_or.mpr ⟨not_mem_word hw hd, hne⟩
    have hcomma : ',' ∉ ' ' :: (w ++ [']']) := by
      rw [mem_cons]
      exact not_or.mpr ⟨by decide, hfree _ (by decide) (by decide)⟩
    have hafter : inBrackets.after (trim (' ' :: (w ++ [']']))) = .ok {} := by
      rw [show trim (' ' :: (w ++ [']'])) = w ++ [']'] from trim_spaces hspace hsolid,
        after_of_no_quotes rfl hfirst getLast?_concat (hfree _ (by decide) (by decide))
          (hfree _ (by decide) (by decide))]
      rfl
    have hjoin : join ", " [w] = w := by simp [join]
    rw [hjoin, splitAtChar_of_not_mem hcomma, singleton_append, collect_cons_of_after hafter]
    change (collect {} (buffer ++ ',' :: ' ' :: (w ++ [']'])) rs).map _ = _
    rw [collect_closed]
    rfl
  | cons w' ws ih =>
    have hw := h w mem_cons_self
    obtain ⟨c, hc, hcw⟩ := head?_word hw
    obtain ⟨d, hd, hdw⟩ := getLast?_word hw
    have hcomma : ',' ∉ ' ' :: w := not_mem_marked hw (by decide) (by decide)
    have hafter : inBrackets.after (trim (' ' :: w)) = .ok inBrackets := by
      rw [show trim (' ' :: w) = w from trim_spaces hspace (solid_word hw),
        after_of_no_quotes rfl hc hd (not_mem_word hw (by decide)) (not_mem_word hw (by decide)),
        beq_false_of_ne (ne_of_class hdw (by decide)), beq_false_of_ne (ne_of_class hcw (by decide))]
      rfl
    have hcut : ' ' :: (join ", " (w :: w' :: ws) ++ [']']) =
        (' ' :: w) ++ ',' :: ' ' :: (join ", " (w' :: ws) ++ [']']) := by
      rw [join_cons_cons]
      simp
    rw [hcut, splitAtChar_append_cons hcomma, cons_append, collect_cons_of_after hafter]
    change collect inBrackets (buffer ++ ',' :: ' ' :: w) _ = _
    rw [ih (forall_mem_cons.mp h).2]
    simp

end Attributes

namespace Attribute

theorem solid_quoted (hname : isBareWord name) (w : Text) : Solid (name ++ '=' :: '"' :: (w ++ ['"'])) :=
  (solid_word hname).between ('=' :: '"' :: w) ⟨⟨'"', rfl, rfl⟩, ⟨'"', rfl, rfl⟩⟩

structure IsValue (v : Text) : Prop where
  quote : '"' ∉ v
  single : '\'' ∉ v
  slash : '\\' ∉ v
  feed : '\n' ∉ v
  apart : v.IsChain fun c d => (c = ',' → Text.isBlank d = false) ∧ (d = ',' → Text.isBlank c = false)

theorem isValue (h : isAttributeValue v) : IsValue v := by
  simp only [isAttributeValue, and_eq_true, all_eq_true, decide_eq_true_eq, isQuote,
    Bool.not_eq_true', Bool.or_eq_false_iff, beq_eq_false_iff_ne, bne_iff_ne] at h
  exact ⟨fun hm => (h.1 _ hm).1.1.1 rfl, fun hm => (h.1 _ hm).1.1.2 rfl, fun hm => (h.1 _ hm).1.2 rfl,
    fun hm => (h.1 _ hm).2 rfl, h.2⟩

variable {x : Text} {c : Char} {a : Attribute}

theorem solid_first (hname : isBareWord name) {y : Text} (h : IsValue (x ++ ',' :: y)) :
    Solid (name ++ '=' :: '"' :: x) := by
  have hword := Attributes.solid_word hname
  rcases eq_nil_or_concat x with rfl | ⟨x, d, rfl⟩
  · exact hword.between ['='] ⟨⟨'"', rfl, rfl⟩, ⟨'"', rfl, rfl⟩⟩
  · rw [concat_eq_append] at h ⊢
    have hblank : isBlank d = false := by
      have hchain := h.apart
      rw [append_assoc] at hchain
      have hpair := (isChain_append.mp hchain).2.1
      exact (isChain_cons_cons.mp hpair).1.2 rfl
    exact hword.between ('=' :: '"' :: x) ⟨⟨d, rfl, hblank⟩, ⟨d, rfl, hblank⟩⟩

theorem count_quoted (hname : isBareWord name) (hx : '"' ∉ x) :
    (name ++ '=' :: '"' :: x).count '"' = 1 := by
  have hfree : name.count '"' = 0 := count_eq_zero.mpr (not_mem_word hname (by decide))
  rw [count_append, hfree, count_cons_of_ne (by decide), count_cons_self, count_eq_zero.mpr hx]

theorem not_mem_quoted (hname : isBareWord name)
    (hc : isWordChar c = false) (hsigns : c ≠ '=' ∧ c ≠ '"') (hx : c ∉ x) : c ∉ name ++ '=' :: '"' :: x := by
  rw [mem_append, mem_cons, mem_cons]
  exact not_or.mpr ⟨not_mem_word hname hc, not_or.mpr ⟨hsigns.1, not_or.mpr ⟨hsigns.2, hx⟩⟩⟩

theorem collected_quoted (hname : isBareWord name) (hv : IsValue v) :
    Collected (name ++ '=' :: '"' :: (v ++ ['"'])) := by
  obtain ⟨c, hc, hcw⟩ := head?_word hname
  obtain ⟨r, rfl⟩ := head?_eq_some_iff.mp hc
  have hfirst : (c == '[') = false := beq_false_of_ne (ne_of_class hcw (by decide))
  by_cases hcomma : ',' ∈ v
  · obtain ⟨x, y, rfl, hx⟩ := eq_append_cons_of_mem hcomma
    have hxquote : '"' ∉ x := fun hm => hv.quote (mem_append_left _ hm)
    have hxsingle : '\'' ∉ x := fun hm => hv.single (mem_append_left _ hm)
    have hsolid := solid_first hname hv
    obtain ⟨d, hd, _⟩ := hsolid.last
    have hafter : Attributes.Open.after {} (c :: r ++ '=' :: '"' :: x) = .ok inQuotes := by
      rw [Open.after, show (c :: r ++ '=' :: '"' :: x).head? = some c from rfl, hd,
        count_quoted hname hxquote]
      simp [hfirst, Attributes.inQuotes]
    intro b hb buffer rs
    have hfree : ',' ∉ b ++ (c :: r ++ '=' :: '"' :: x) := by
      rw [mem_append]
      exact not_or.mpr ⟨comma_not_mem_spaces hb, not_mem_quoted hname (by decide) (by decide) hx⟩
    have hcut : b ++ (c :: r ++ '=' :: '"' :: (x ++ ',' :: y ++ ['"'])) =
        (b ++ (c :: r ++ '=' :: '"' :: x)) ++ ',' :: (y ++ ['"']) := by simp
    have hwhole : (c :: r ++ '=' :: '"' :: x) ++ ',' :: (y ++ ['"']) =
        c :: r ++ '=' :: '"' :: (x ++ ',' :: y ++ ['"']) := by simp
    rw [hcut, splitAtChar_append_cons hfree, cons_append, collect_start hb hsolid hafter rfl,
      collect_inQuotes (fun hm => hv.quote (mem_append_right _ (.tail _ hm)))
        (fun hm => hv.slash (mem_append_right _ (.tail _ hm))), hwhole, (solid_quoted hname _).trim_eq]
  · have hsolid := solid_quoted hname v
    refine Collected.of_single hsolid ?_ ?_
    · exact not_mem_quoted hname (by decide) (by decide) (by simpa using hcomma)
    · have hsingle : '\'' ∉ c :: r ++ '=' :: '"' :: (v ++ ['"']) :=
        not_mem_quoted hname (by decide) (by decide) (by simpa using hv.single)
      have hdouble : (c :: r ++ '=' :: '"' :: (v ++ ['"'])).count '"' = 2 := by
        have hcut : c :: r ++ '=' :: '"' :: (v ++ ['"']) = (c :: r ++ '=' :: '"' :: v) ++ ['"'] := by simp
        rw [hcut, count_append, count_quoted hname hv.quote]
        rfl
      obtain ⟨d, hd, _⟩ := hsolid.last
      rw [Attributes.Open.after, show (c :: r ++ '=' :: '"' :: (v ++ ['"'])).head? = some c from rfl, hd, hdouble,
        count_eq_zero.mpr hsingle]
      simp [hfirst]

theorem solid_array (words : List Text) : Solid ('[' :: (join ", " words ++ [']'])) :=
  Solid.between (a := ['[']) ⟨⟨'[', rfl, rfl⟩, ⟨'[', rfl, rfl⟩⟩ (join ", " words)
    ⟨⟨']', rfl, rfl⟩, ⟨']', rfl, rfl⟩⟩

theorem not_mem_array {words : List Text} (h : ∀ w ∈ words, isBareWord w)
    (hc : isWordChar c = false) (hsigns : c ∉ ['[', ']', ',', ' ']) :
    c ∉ '[' :: (join ", " words ++ [']']) := by
  simp only [mem_cons, not_mem_nil, or_false, not_or] at hsigns
  intro hm
  rcases mem_cons.mp hm with hm | hm
  · exact hsigns.1 hm
  rcases mem_append.mp hm with hm | hm
  · rcases mem_join hm with hm | ⟨w, hw, hm⟩
    · rcases mem_cons.mp hm with hm | hm
      · exact hsigns.2.2.1 hm
      · exact hsigns.2.2.2 (mem_singleton.mp hm)
    · exact not_mem_word (h w hw) hc hm
  · exact hsigns.2.1 (mem_singleton.mp hm)

theorem collected_array {words : List Text} (h : ∀ w ∈ words, isBareWord w) :
    Collected ('[' :: (join ", " words ++ [']'])) := by
  have hlast : ∀ ws : List Text, ('[' :: (join ", " ws ++ [']'])).getLast? = some ']' :=
    fun ws => getLast?_concat (l := '[' :: join ", " ws)
  have hclosed : Open.after {} ('[' :: (join ", " words ++ [']'])) = .ok {} := by
    rw [after_of_no_quotes rfl rfl (hlast words) (not_mem_array h (by decide) (by decide))
      (not_mem_array h (by decide) (by decide))]
    rfl
  match words, h with
  | [], _ => exact Collected.of_single (solid_array []) (by decide) hclosed
  | [w], h =>
    refine Collected.of_single (solid_array [w]) ?_ hclosed
    have hw := h w mem_cons_self
    simp [join, not_mem_word hw (c := ',') (by decide)]
  | w :: w' :: ws, h =>
    have hw := h w mem_cons_self
    intro b hb buffer rs
    have hcomma : ',' ∉ b ++ '[' :: w := by
      rw [mem_append]
      exact not_or.mpr ⟨comma_not_mem_spaces hb, not_mem_marked hw (by decide) (by decide)⟩
    have hwhole : '[' :: w ++ ',' :: ' ' :: (join ", " (w' :: ws) ++ [']']) =
        '[' :: (join ", " (w :: w' :: ws) ++ [']']) := by
      rw [join_cons_cons]
      simp
    rw [← hwhole, ← append_assoc, splitAtChar_append_cons hcomma, cons_append,
      collect_start hb (solid_marked rfl hw) (after_marked rfl hw) rfl]
    change collect inBrackets _ _ = _
    rw [collect_inBrackets (forall_mem_cons.mp h).2, hwhole, (solid_array _).trim_eq]

/-! ## Numbers -/

theorem readUnsigned?_decimal (h : isUnsignedDecimal x) (negative : Bool) :
    (readUnsigned? negative x).isSome := by
  simp only [isUnsignedDecimal, and_eq_true, all_eq_true, any_eq_true, decide_eq_true_eq] at h
  obtain ⟨⟨hall, c, hc, hdigit⟩, hpoints⟩ := h
  have hwhole : ∀ d ∈ x.takeWhile Char.isDigit, d.isDigit := fun d hd => mem_takeWhile_imp hd
  have hcut := takeWhile_append_dropWhile (p := Char.isDigit) (l := x)
  rw [readUnsigned?]
  cases hrest : x.dropWhile Char.isDigit with
  | nil =>
    rw [hrest, append_nil] at hcut
    have hne : (x.takeWhile Char.isDigit).isEmpty = false := by
      rw [hcut]
      exact isEmpty_eq_false_iff.mpr (ne_nil_of_mem hc)
    simp [hne, readExponent?]
  | cons d r =>
    have hmem : ∀ e ∈ d :: r, e ∈ x := by
      intro e he
      rw [← hcut, hrest]
      exact mem_append_right _ he
    -- What stops the digits is the point, and no second one follows.
    have hd : d.isDigit = false := by
      have hhead := head?_dropWhile_not Char.isDigit x
      rw [hrest] at hhead
      simpa using hhead
    obtain rfl : d = '.' := by simpa [hd] using hall d (hmem d mem_cons_self)
    have hsecond : '.' ∉ r := by
      intro hm
      have hcount : (x.takeWhile Char.isDigit ++ '.' :: r).count '.' ≤ 1 := by
        rw [← hrest, hcut]
        exact hpoints
      rw [count_append, count_cons_self] at hcount
      have hpos := count_pos_iff.mpr hm
      omega
    have hdigits : ∀ e ∈ r, e.isDigit := by
      intro e he
      have hclass := hall e (hmem e (.tail _ he))
      rcases Bool.or_eq_true_iff.mp hclass with hclass | hclass
      · exact hclass
      · rw [beq_iff_eq.mp hclass] at he
        exact absurd he hsecond
    have htake : r.takeWhile Char.isDigit = r := takeWhile_eq_self_iff.mpr hdigits
    have hdrop : r.dropWhile Char.isDigit = [] := dropWhile_eq_nil_iff.mpr hdigits
    have hne : ((x.takeWhile Char.isDigit).isEmpty && r.isEmpty) = false := by
      rw [Bool.and_eq_false_iff, isEmpty_eq_false_iff, isEmpty_eq_false_iff]
      by_contra hboth
      rw [not_or, not_not, not_not] at hboth
      rw [← hcut, hrest, hboth.1, hboth.2] at hc
      rw [mem_singleton.mp hc] at hdigit
      exact absurd hdigit (by decide)
    simp [htake, hdrop, hne, readExponent?]

theorem toLower_ne (h : isUnsignedDecimal x) {w : Text}
    (hw : ∀ c ∈ w, c.isDigit = false ∧ c ≠ '.') (hne : w ≠ []) : toLower x ≠ w := by
  simp only [isUnsignedDecimal, and_eq_true, all_eq_true, any_eq_true] at h
  obtain ⟨⟨hall, _⟩, _⟩ := h
  rintro rfl
  cases x with
  | nil => exact hne rfl
  | cons c x =>
    have hlow : c.toLower = c := by
      have hc := hall c mem_cons_self
      rcases Bool.or_eq_true_iff.mp hc with hc | hc
      · refine dif_neg fun hupper => ?_
        simp only [Char.isDigit, and_eq_true, decide_eq_true_eq] at hc
        exact absurd (Nat.le_trans hupper.1 hc.2) (by decide)
      · rw [beq_iff_eq.mp hc]
        rfl
    obtain ⟨hdigit, hpoint⟩ := hw c.toLower mem_cons_self
    rw [hlow] at hdigit hpoint
    have hc := hall c mem_cons_self
    rw [hdigit, beq_false_of_ne hpoint] at hc
    cases hc

theorem isDecimal_ne_nil (h : isDecimal x) : x ≠ [] := by
  rintro rfl
  cases h

theorem takeSign_decimal (h : isDecimal x) :
    ∃ negative y, takeSign x = (negative, y) ∧ isUnsignedDecimal y := by
  unfold isDecimal at h
  split at h
  · exact ⟨true, _, rfl, h⟩
  · exact ⟨false, _, rfl, h⟩
  · rename_i hminus hplus
    refine ⟨false, x, ?_, h⟩
    unfold takeSign
    split
    · exact absurd rfl (hminus _)
    · exact absurd rfl (hplus _)
    · rfl

theorem solid_decimal (h : isDecimal x) : Solid x := solid_of_forall (isDecimal_ne_nil h) fun c hc =>
    isBlank_eq_false_of_class (isDecimalChar_of_mem h c hc) (by decide)

theorem solid_number (hname : isBareWord name) (hx : isDecimal x) : Solid (name ++ '=' :: x) :=
  (solid_word hname).between ['='] (solid_decimal hx)

theorem isNumber_decimal (h : isDecimal x) : isNumber x := by
  obtain ⟨negative, y, hsign, hy⟩ := takeSign_decimal h
  have hinf : (toLower y == "inf") = false := beq_false_of_ne (toLower_ne hy (by decide) (by decide))
  have hinfinity : (toLower y == "infinity") = false :=
    beq_false_of_ne (toLower_ne hy (by decide) (by decide))
  have hnan : (toLower y == "nan") = false := beq_false_of_ne (toLower_ne hy (by decide) (by decide))
  rw [isNumber, read?, (solid_decimal h).trim_eq, hsign]
  simp only [hinf, hinfinity, hnan, Bool.or_self, Bool.false_eq_true, if_false]
  exact readUnsigned?_decimal hy negative

/-! ## Reading a list -/

theorem collected_source (h : a.isSound) : Collected a.source := by
  cases a with
  | word w =>
    have hsimple := simple_of_isBareWord h
    exact .of_single hsimple.solid (not_mem_word h (by decide)) hsimple.after
  | shorthand w =>
    have hw : isBareWord w := h
    exact .of_single (solid_marked rfl hw) (not_mem_marked hw (by decide) (by decide))
      (after_marked rfl hw)
  | number name x =>
    rw [isSound, and_eq_true] at h
    obtain ⟨hname, hx⟩ := h
    have hclass := isDecimalChar_of_mem hx
    obtain ⟨c, hc, hcw⟩ := head?_word hname
    obtain ⟨d, hd, _⟩ := (solid_decimal hx).last
    have hdx : isDecimalChar d := hclass d (mem_of_mem_getLast? hd)
    have hfirst : (name ++ '=' :: x).head? = some c := by
      rw [head?_append, hc]
      rfl
    have hlast : (name ++ '=' :: x).getLast? = some d := by
      rw [getLast?_append, getLast?_cons, hd]
      rfl
    have hfree : ∀ e, isWordChar e = false → isDecimalChar e = false → e ≠ '=' → e ∉ name ++ '=' :: x := by
      intro e hword hdecimal hne hm
      rcases mem_append.mp hm with hm | hm
      · exact not_mem_word hname hword hm
      · rcases mem_cons.mp hm with hm | hm
        · exact hne hm
        · exact not_mem_of_all hclass hdecimal hm
    refine .of_single (solid_number hname hx) (hfree _ (by decide) (by decide) (by decide)) ?_
    rw [source, after_of_no_quotes rfl hfirst hlast (hfree _ (by decide) (by decide) (by decide))
      (hfree _ (by decide) (by decide) (by decide)), beq_false_of_ne (ne_of_class hdx (by decide)),
      beq_false_of_ne (ne_of_class hcw (by decide))]
    rfl
  | quoted name value =>
    rw [isSound, and_eq_true] at h
    exact collected_quoted h.1 (isValue h.2)
  | array words => exact collected_array (all_eq_true.mp h)

theorem head?_source (h : a.isSound) :
    ∃ c, a.source.head? = some c ∧ (isWordChar c ∨ c = '.' ∨ c = '[') := by
  have hnamed : ∀ {name : Text} (s : Text), isBareWord name →
      ∃ c, (name ++ s).head? = some c ∧ (isWordChar c ∨ c = '.' ∨ c = '[') := by
    intro name s hname
    obtain ⟨c, hc, hcw⟩ := head?_word hname
    obtain ⟨r, rfl⟩ := head?_eq_some_iff.mp hc
    exact ⟨c, rfl, .inl hcw⟩
  cases a with
  | word w =>
    obtain ⟨c, hc, hcw⟩ := head?_word h
    exact ⟨c, hc, .inl hcw⟩
  | shorthand w => exact ⟨'.', rfl, .inr (.inl rfl)⟩
  | number name x =>
    rw [isSound, and_eq_true] at h
    exact hnamed _ h.1
  | quoted name value =>
    rw [isSound, and_eq_true] at h
    exact hnamed _ h.1
  | array words => exact ⟨'[', rfl, .inr (.inr rfl)⟩

theorem isQuote_eq_false_of_isWordChar (h : isWordChar c) : isQuote c = false := by
  rw [isQuote, beq_false_of_ne (ne_of_class h (by decide)), beq_false_of_ne (ne_of_class h (by decide))]
  rfl

theorem unquoteName_of_head? {p : Text} (hc : p.head? = some c) (hquote : isQuote c = false) :
    unquoteName p = p := by
  obtain ⟨r, rfl⟩ := head?_eq_some_iff.mp hc
  rw [unquoteName, hasQuotedName, hquote]
  rfl

theorem unquoteName_source (h : a.isSound) : unquoteName a.source = a.source := by
  obtain ⟨c, hc, hclass⟩ := head?_source h
  apply unquoteName_of_head? hc
  rcases hclass with hword | rfl | rfl
  · exact isQuote_eq_false_of_isWordChar hword
  · rfl
  · rfl

theorem expand_named {s : Text} (hname : isBareWord name) (hsolid : Solid (name ++ '=' :: s)) :
    expand (name ++ '=' :: s) = match splitAtChar s '=' with
      | value :: _ => if value.isNumber then .ok (name ++ "=\"" ++ value.trim ++ ['"'])
        else .ok (name ++ '=' :: s)
      | [] => .ok (name ++ '=' :: s) := by
  obtain ⟨c, hc, hcw⟩ := head?_word hname
  have htrim := (solid_word hname).trim_eq
  have hsplit := splitAtChar_append_cons (not_mem_of_all (mem_of_isBareWord hname) (d := '=') (by decide)) s
  obtain ⟨r, rfl⟩ := head?_eq_some_iff.mp hc
  have hdot : (c == '.') = false := beq_false_of_ne (ne_of_class hcw (by decide))
  rw [cons_append] at hsplit
  rw [expand, hsolid.trim_eq, cons_append]
  simp only [hdot, Bool.false_eq_true, if_false, hsplit]
  cases splitAtChar s '=' with
  | nil => rfl
  | cons value more => simp [htrim]

theorem expand_quoted (hname : isBareWord name) (value : Text) :
    expand (name ++ '=' :: '"' :: (value ++ ['"'])) = .ok (name ++ '=' :: '"' :: (value ++ ['"'])) := by
  obtain ⟨w, ws, hpieces⟩ : ∃ w ws, splitAtChar ('"' :: (value ++ ['"'])) '=' = ('"' :: w) :: ws := by
    rw [splitAtChar, pieces]
    cases hp : pieces (· == '=') (value ++ ['"']) with
    | nil => exact absurd hp (pieces_ne_nil _ _)
    | cons w ws => exact ⟨w, ws, rfl⟩
  rw [expand_named hname (solid_quoted hname value), hpieces]
  simp [isNumber_quote_cons]

theorem expand_source (h : a.isSound) : expand a.source = .ok a.full.source := by
  cases a with
  | word w => exact (simple_of_isBareWord h).expand
  | shorthand w =>
    have hsolid : Solid ('.' :: w) := solid_marked rfl h
    rw [source, expand, hsolid.trim_eq]
    rfl
  | number name x =>
    rw [isSound, and_eq_true] at h
    obtain ⟨hname, hx⟩ := h
    have hclass := isDecimalChar_of_mem hx
    have hsingle : splitAtChar x '=' = [x] := pieces_of_forall_not fun c hc =>
      beq_false_of_ne (ne_of_class (hclass c hc) (by decide))
    rw [source, expand_named hname (solid_number hname hx), hsingle]
    simp only [isNumber_decimal hx, if_true, (solid_decimal hx).trim_eq]
    simp [full, source]
  | quoted name value =>
    rw [isSound, and_eq_true] at h
    exact expand_quoted h.1 value
  | array words =>
    have hwords := all_eq_true.mp h
    have hsingle : splitAtChar ('[' :: (join ", " words ++ [']'])) '=' =
        ['[' :: (join ", " words ++ [']'])] := by
      apply pieces_of_forall_not
      intro c hc
      apply beq_false_of_ne
      rintro rfl
      exact not_mem_array hwords (by decide) (by decide) hc
    rw [source, expand, (solid_array words).trim_eq]
    simp only [hsingle]
    rfl

theorem newline_not_mem_source (h : a.isSound) : '\n' ∉ a.source := by
  cases a with
  | word w => exact not_mem_word h (by decide)
  | shorthand w =>
    have hw : isBareWord w := h
    exact not_mem_marked hw (by decide) (by decide)
  | number name x =>
    rw [isSound, and_eq_true] at h
    rw [source, mem_append, mem_cons]
    exact not_or.mpr ⟨not_mem_word h.1 (by decide),
      not_or.mpr ⟨by decide, not_mem_of_all (isDecimalChar_of_mem h.2) (by decide)⟩⟩
  | quoted name value =>
    rw [isSound, and_eq_true] at h
    refine not_mem_quoted h.1 (by decide) (by decide) ?_
    simpa using (isValue h.2).feed
  | array words => exact not_mem_array (all_eq_true.mp h) (by decide) (by decide)

theorem collect_sources {b : Text} (hb : ∀ c ∈ b, c = ' ') {as : List Attribute}
    (h : ∀ a ∈ as, a.isSound) (buffer : Text) :
    collect {} buffer ((as.map source).flatMap fun p => splitAtChar (b ++ p) ',') = .ok (as.map source) := by
  induction as generalizing buffer with
  | nil => rfl
  | cons a as ih =>
    rw [map_cons, flatMap_cons, collected_source (h a mem_cons_self) b hb, ih (forall_mem_cons.mp h).2]
    rfl

/-- A list of attributes is read as the attributes in full, whatever spaces follow the commas. -/
theorem read_sources {b : Text} (hb : ∀ c ∈ b, c = ' ') {as : List Attribute} (h : ∀ x ∈ a :: as, x.isSound) :
    read ('(' :: (join (',' :: b) ((a :: as).map source) ++ [')'])) =
      .ok ((a :: as).map fun x => x.full.source) := by
  have hfeed : '\n' ∉ join (',' :: b) ((a :: as).map source) := by
    intro hm
    rcases mem_join hm with hm | ⟨p, hp, hm⟩
    · rcases mem_cons.mp hm with hm | hm
      · exact absurd hm (by decide)
      · exact absurd (hb _ hm) (by decide)
    · obtain ⟨x, hx, rfl⟩ := mem_map.mp hp
      exact newline_not_mem_source (h x hx) hm
  have hinside : inParentheses? ('(' :: (join (',' :: b) ((a :: as).map source) ++ [')'])) =
      some (join (',' :: b) ((a :: as).map source)) :=
    inParentheses?_append (n := []) (by decide) hfeed (by decide) (by decide)
  have hcollect : collect {} [] (splitAtChar (join (',' :: b) ((a :: as).map source)) ',') =
      .ok ((a :: as).map source) := by
    have hfirst := collected_source (h a mem_cons_self) [] (by simp) []
      ((as.map source).flatMap fun p => splitAtChar (b ++ p) ',')
    rw [nil_append] at hfirst
    rw [map_cons, splitAtChar_join_flatMap, hfirst, collect_sources hb (forall_mem_cons.mp h).2]
    rfl
  have hexpand : ∀ as : List Attribute, (∀ x ∈ as, x.isSound) →
      (as.map source).mapM (fun p => do return unquoteName (← expand p)) =
        .ok (as.map fun x => x.full.source) := by
    intro as hall
    induction as with
    | nil => rfl
    | cons x as ih =>
      have hx := hall x mem_cons_self
      rw [map_cons, mapM_cons, ih (forall_mem_cons.mp hall).2, expand_source hx]
      change Except.ok (unquoteName x.full.source :: _) = _
      rw [unquoteName_source (isSound_full hx)]
      rfl
  obtain ⟨c, r, hne⟩ : ∃ c r, join (',' :: b) ((a :: as).map source) = c :: r := by
    obtain ⟨c, hc, _⟩ := head?_source (h a mem_cons_self)
    obtain ⟨r, hr⟩ := head?_eq_some_iff.mp hc
    cases as with
    | nil => exact ⟨c, r, by simp [join, hr]⟩
    | cons x as => exact ⟨c, _, by rw [map_cons, map_cons, join_cons_cons, hr]; rfl⟩
  rw [Attributes.read, hinside]
  rw [hne] at hcollect ⊢
  change (collect {} [] (splitAtChar (c :: r) ',') >>= fun collected => _) = _
  rw [hcollect]
  exact hexpand (a :: as) h

end Attribute

namespace Attributes

/-- A list of attributes of any kinds is read as these attributes in full, and the attributes in full,
with commas alone between them, are read as they are. -/
theorem read_attributes (as : List Attribute) (hne : as ≠ []) (h : ∀ a ∈ as, a.isSound = true) :
    read ('(' :: (Text.join ", " (as.map Attribute.source) ++ [')'])) =
        .ok (as.map fun a => a.full.source) ∧
      read ('(' :: (Text.join "," (as.map fun a => a.full.source) ++ [')'])) =
        .ok (as.map fun a => a.full.source) := by
  obtain ⟨a, as, rfl⟩ := List.exists_cons_of_ne_nil hne
  refine ⟨Attribute.read_sources (b := [' ']) (by decide) h, ?_⟩
  have hfull : ∀ x ∈ a.full :: as.map Attribute.full, x.isSound = true := by
    intro x hx
    rw [← List.map_cons] at hx
    obtain ⟨y, hy, rfl⟩ := List.mem_map.mp hx
    exact Attribute.isSound_full (h y hy)
  have hread := Attribute.read_sources (b := []) (by decide) hfull
  simp only [← List.map_cons, List.map_map, Function.comp_def, Attribute.full_full] at hread
  exact hread

/-- A value with commas, brackets, parentheses and an equals sign, between attributes of the other
kinds. -/
theorem read_attributes_sample :
    read "(a, .b, x=-1.50, y=\"[1,(=),,2]\", [p, q_1, r])" =
        .ok ["a", "class=\"b\"", "x=\"-1.50\"", "y=\"[1,(=),,2]\"",
          "[p, q_1, r]"] ∧
      read "(a,class=\"b\",x=\"-1.50\",y=\"[1,(=),,2]\",[p, q_1, r])" =
        .ok ["a", "class=\"b\"", "x=\"-1.50\"", "y=\"[1,(=),,2]\"",
          "[p, q_1, r]"] :=
  read_attributes [.word "a", .shorthand "b", .number "x" "-1.50", .quoted "y" "[1,(=),,2]",
    .array ["p", "q_1", "r"]] (by decide) (by decide)

end Attributes
end OutlineMarkup
