import OutlineMarkup.Proofs.Colours

/-!
# Arithmetic with colours

Main statements: as long as no value is long, the result of a formula with colours is exact up to the
least and the greatest colour, and behind the name of an attribute only formulas without colours are computed.
-/

namespace OutlineMarkup
open List Text Arithmetic

theorem Formula.pairwise_of_six {f : Formula} (h : ∀ c ∈ f.codes, c.length = 6) :
    f.codes.Pairwise fun c d => c ≠ d → ¬ c <+: d :=
  pairwise_of_forall_mem_list fun c hc d hd hne hpre => hne (hpre.eq_of_length ((h c hc).trans (h d hd).symm))

theorem Colour.clamp_eq (n : Int) : ∃ m : Nat, clamp n = m ∧ m < 16 ^ 6 := by
  refine ⟨(clamp n).toNat, ?_, ?_⟩ <;> (unfold clamp greatest; omega)

open Colour in
/-- Formulas of numbers and colours are computed exactly, within the least and the greatest colour; colours of
six digits and their numbers are each other's inverses, and each of three digits counts twice. -/
theorem Colour.arithmetic_exact :
    (∀ (f : Formula) (x : Spelling) (j : Nat), f.IsSpelled x → f.IsClosed → f.isComputed = true →
      (∀ c ∈ f.codes, c.length = 6) → f.codes ≠ [] → f.isSmall (fun _ => 0) = true →
      ∃ d, computePart (x.text ++ replicate j ' ') = .ok ('#' :: d) ∧ d.length = 6 ∧ (∀ c ∈ d, c ∈ lowerDigits) ∧
        (base16 d : Int) = max 0 (min (f.value fun _ => 0) 0xffffff)) ∧
    (∀ n : Int, 0 ≤ n → n ≤ 0xffffff → toNumber (ofNumber n) = .ok n) ∧
    (∀ h : Text, h.length = 6 → (∀ c ∈ h, isHexDigit c = true) →
      toNumber h = .ok (base16 h : Int) ∧ ofNumber (base16 h) = h.toLower) ∧
    ∀ r g b : Char, isHexDigit r = true → isHexDigit g = true → isHexDigit b = true →
      ∃ n, toNumber [r, g, b] = .ok n ∧ toNumber [r, r, g, g, b, b] = .ok n := by
  refine ⟨fun f x j h hclosed hcomputed hsix hne hsmall => ?_, fun n hn hle => ?_, fun h hlength hhex => ?_,
    fun r g b hr hg hb => ?_⟩
  · obtain ⟨m, hm, hlt⟩ := clamp_eq (f.value fun _ => 0)
    obtain ⟨hlength, hmem, hvalue⟩ := ofNumber_eq hlt
    have hpart := h.computePart_text hclosed (Formula.pairwise_of_six hsix) (fun _ => 0) hcomputed hsmall j
    rw [if_neg ((not_congr (Formula.codes_eq_nil_iff hclosed)).mp hne), hm] at hpart
    refine ⟨ofNumber m, hpart, hlength, hmem, ?_⟩
    rw [hvalue, ← hm, clamp, greatest, max_comm]
  · lift n to Nat using hn
    exact toNumber_ofNumber (by omega)
  · refine ⟨?_, ofNumber_base16 hhex hlength⟩
    rw [toNumber_digits hhex (.inr hlength), sixDigits, if_neg (by omega)]
  · have hthree : ∀ c ∈ [r, g, b], isHexDigit c := by simp [hr, hg, hb]
    have hsix : ∀ c ∈ [r, r, g, g, b, b], isHexDigit c := by simp [hr, hg, hb]
    exact ⟨_, toNumber_digits hthree (.inl rfl), toNumber_digits hsix (.inr rfl)⟩

theorem Colour.arithmetic_exact_sample :
    ∃ d, computePart " ( #00FF00 - 1)* -2 +#fffFFF ".toList = .ok ('#' :: d) ∧ d.length = 6 ∧
      (∀ c ∈ d, c ∈ lowerDigits) ∧ (base16 d : Int) = 0xfe0201 :=
  arithmetic_exact.1
    (.binary .plus (.binary .times (.group (.binary .minus (.operand (.colour "00FF00")) (.operand (.number 1))))
      (.negative (.operand (.number 2)))) (.operand (.colour "fffFFF")))
    [(1, .opening), (1, .operand (.colour "00FF00")), (1, .operator .minus), (1, .operand (.number 1)), (0, .closing),
      (0, .operator .times), (1, .operator .minus), (0, .operand (.number 2)), (1, .operator .plus),
      (0, .operand (.colour "fffFFF"))] 1
    (by decide +kernel) (by simp [Formula.IsClosed, Formula.operands]) rfl (by decide +kernel) (by decide)
    (by decide +kernel)

/-! ## Spellings of colours -/

/-- A colour with its digits written out, in lower case. -/
def Operand.inFull : Operand → Formula
  | .colour code => .operand (.colour (Colour.sixDigits code).toLower)
  | o => .operand o

namespace Formula
variable {f g : Formula} {x y : Spelling}

open Colour in
theorem IsSpelled.value_inFull (h : f.IsSpelled x) (env : Text → Int) :
    (f.bind Operand.inFull).value env = f.value env := by
  refine value_bind fun o ho => ?_
  cases o with
  | number n | reference name => rfl
  | colour code =>
    obtain ⟨hhex, hlength⟩ := h.digits (mem_codes.mpr ho)
    have hsix : (∀ c ∈ sixDigits code, isHexDigit c) ∧ (sixDigits code).toLower.length = 6 := by
      rcases hlength with hlength | hlength
      · obtain ⟨r, g, b, rfl⟩ := length_eq_three.mp hlength
        exact ⟨fun c hc => hhex c (by simpa [sixDigits] using hc), rfl⟩
      · rw [sixDigits, if_neg (by omega)]
        exact ⟨hhex, (length_map _).trans hlength⟩
    change (toNumber (sixDigits code).toLower).toOption.getD 0 = (toNumber code).toOption.getD 0
    rw [toNumber_digits hhex hlength, toNumber_digits (isHexDigit_toLower hsix.1) (.inr hsix.2),
      sixDigits.eq_def (Text.toLower _), if_neg (by omega), base16_toLower hsix.1]

theorem isNumeric_inFull (f : Formula) : (f.bind Operand.inFull).isNumeric = f.isNumeric := by
  rw [isNumeric, operands_bind, all_flatMap]
  refine congrArg (all f.operands) (funext fun o => ?_)
  cases o <;> rfl

/-- How the digits of colours are written does not matter, as long as no code begins another one behind it. -/
theorem computePart_respelled (h : f.IsSpelled x) (hg : g.IsSpelled y)
    (hsame : f.bind Operand.inFull = g.bind Operand.inFull) (hclosed : f.IsClosed ∧ g.IsClosed)
    (hcomputed : f.isComputed = true ∧ g.isComputed = true)
    (hsmall : f.isSmall (fun _ => 0) = true ∧ g.isSmall (fun _ => 0) = true)
    (hcodes : ∀ codes ∈ [f.codes, g.codes], codes.Pairwise fun c d => c ≠ d → ¬ c <+: d) (i j : Nat) :
    ∃ r, computePart (x.text ++ replicate i ' ') = .ok r ∧ computePart (y.text ++ replicate j ' ') = .ok r := by
  have hfirst := h.computePart_text hclosed.1 (hcodes _ (by simp)) (fun _ => 0) hcomputed.1 hsmall.1 i
  have hsecond := hg.computePart_text hclosed.2 (hcodes _ (by simp)) (fun _ => 0) hcomputed.2 hsmall.2 j
  rw [← h.value_inFull, ← isNumeric_inFull, hsame, isNumeric_inFull, hg.value_inFull] at hfirst
  exact ⟨_, hfirst, hsecond⟩

theorem computePart_respelled_lime :
    ∃ r, computePart "#0f0-#000".toList = .ok r ∧ computePart "#00FF00 - #000000".toList = .ok r :=
  computePart_respelled (f := .binary .minus (.operand (.colour "0f0")) (.operand (.colour "000")))
    (g := .binary .minus (.operand (.colour "00FF00")) (.operand (.colour "000000")))
    (x := [(0, .operand (.colour "0f0")), (0, .operator .minus), (0, .operand (.colour "000"))])
    (y := [(0, .operand (.colour "00FF00")), (1, .operator .minus), (1, .operand (.colour "000000"))])
    (by decide +kernel) (by decide +kernel) (by decide +kernel) (by simp [IsClosed, operands]) ⟨rfl, rfl⟩
    (by decide +kernel) (by decide) 0 0

/-- Names with capitals are not colours, and a code that begins another one spoils it. -/
theorem computePart_spelling_matters :
    computePart "\"white\"+#000000".toList = .ok "#ffffff".toList ∧
    computePart "\"White\"+#000000".toList = .error .wrongType ∧
    computePart "#0000ff+#00f001".toList = .ok "#00f100".toList ∧
    computePart "#00f+#00f001".toList = .ok "#03e518".toList := by
  decide +kernel

end Formula

/-! ## Values of attributes -/

theorem Text.readInt?_letter {c : Char} (hc : c.isAlpha) (r : Text) : readInt? 10 (c :: r) = none := by
  have hdigit : c.isDigit = false := by
    rw [Bool.eq_false_iff]
    intro hdigit
    have hstart := isNameStart_of_isDigit hdigit
    simp [isNameStart, hc] at hstart
  obtain ⟨r', hr'⟩ : ∃ r', trim (c :: r) = c :: r' := by
    have hblank : isBlank c = false := isBlank_eq_false_of_class (p := Char.isAlpha) hc (by decide)
    refine ⟨trimRight r, ?_⟩
    rw [trim, trimLeft, dropWhile_cons_of_neg (by simp [hblank])]
    exact trimRight_append_cons hblank [] r
  have htake : takeSign (c :: r') = (false, c :: r') := by
    unfold takeSign
    split
    · rename_i heq
      exact absurd (cons.inj heq).1 (ne_of_class hc rfl)
    · rename_i heq
      exact absurd (cons.inj heq).1 (ne_of_class hc rfl)
    · rfl
  have hmark : dropBaseMark 10 (c :: r') = c :: r' := by
    unfold dropBaseMark
    split
    · rename_i heq
      exact absurd (cons.inj heq).1 (ne_of_class hc rfl)
    · rfl
  have hnone : digitsFrom? 10 0 (c :: r') = none := by
    rw [digitsFrom?, digitValue?, hdigit]
    simp only [Bool.false_eq_true, if_false]
    split
    · rename_i d hd
      refine if_neg ?_
      split at hd
      · cases hd
        omega
      · split at hd
        · cases hd
          omega
        · cases hd
    · rfl
  simp only [readInt?, hr', htake, hmark, readNat?, hnone]
  rfl

theorem Arithmetic.nameAndValue?_letters {name value : Text} (hne : name ≠ []) (hletters : ∀ c ∈ name, c.isAlpha)
    (hline : '\n' ∉ value) : nameAndValue? (name ++ '=' :: value) = some (name, value) := by
  obtain ⟨c, r, rfl⟩ := exists_cons_of_ne_nil hne
  have hnot : ∀ {d : Char}, d.isAlpha = false → d ∉ c :: r := fun hd => not_mem_of_all hletters hd
  have hquote : isQuote c = false := by
    have hc := hletters c mem_cons_self
    have hdouble : (c == '"') = false := beq_eq_false_iff_ne.mpr (ne_of_class hc rfl)
    have hsingle : (c == '\'') = false := beq_eq_false_iff_ne.mpr (ne_of_class hc rfl)
    rw [isQuote, hdouble, hsingle]
    rfl
  have hcut : Text.cut? (r ++ '=' :: value) "=" = some (r, value) :=
    cut?_append_cons fun hm => hnot rfl (mem_cons_of_mem _ hm)
  have hlast : (value.getLast? == some '\n') = false := by
    rw [beq_eq_false_iff_ne]
    exact fun heq => hline (mem_of_getLast? heq)
  have hbreak : hasChar r '\n' = false ∧ hasChar value '\n' = false :=
    ⟨(hasChar_eq_false_iff _ _).mpr fun hm => hnot rfl (mem_cons_of_mem _ hm), (hasChar_eq_false_iff _ _).mpr hline⟩
  rw [cons_append, nameAndValue?]
  simp only [hquote, hcut, hlast, hbreak.1, hbreak.2, Bool.or_self, Bool.false_eq_true, if_false]

namespace Formula
variable {f : Formula} {x : Spelling}

/-- Behind the name of an attribute a formula is computed just when no colour occurs in it. -/
theorem computePart_attribute {name : Text} (hne : name ≠ []) (hletters : ∀ c ∈ name, c.isAlpha = true)
    (h : f.IsSpelled x) (hclosed : f.IsClosed) (hcomputed : f.isComputed = true) (hsix : ∀ c ∈ f.codes, c.length = 6)
    (hsmall : f.isSmall (fun _ => 0) = true) (j : Nat) :
    ∃ r, computePart (x.text ++ replicate j ' ') = .ok r ∧
      (computePart (name ++ '=' :: (x.text ++ replicate j ' ')) = .ok (name ++ '=' :: r) ↔ f.codes = []) ∧
      (f.codes ≠ [] → computePart (name ++ '=' :: (x.text ++ replicate j ' ')) = .error .badValue) := by
  have hnot : ∀ {c : Char}, c.isAlpha = false → c ≠ '=' → c ∉ name ++ ['='] := fun hc hne hm =>
    (mem_append.mp hm).elim (not_mem_of_all hletters hc) fun hm => hne (mem_singleton.mp hm)
  have hdouble := h.hasOperator_text hcomputed (by decide) (hnot (c := '"') rfl (by decide)) j
  have hsingle := h.hasOperator_text hcomputed (by decide) (hnot (c := '\'') rfl (by decide)) j
  obtain ⟨g, y, hnumbers, hg, hnumeric, hvalue, hword⟩ := h.withColourNumbers_text hclosed (pairwise_of_six hsix) (fun _ => 0)
    (hnot rfl (by decide)) (hnot rfl (by decide)) j
  have hline : '\n' ∉ y.text ++ replicate j ' ' := hg.not_mem_spaced (by decide) j
  have hpair := nameAndValue?_letters hne hletters hline
  have hcompute : compute (y.text ++ replicate j ' ') = .ok (Text.ofInt (f.value fun _ => 0)) := by
    rw [compute, result_text hg.fits hnumeric hg.signs (hword hsmall), hvalue]
  rw [append_assoc, singleton_append] at hdouble hsingle
  rw [append_assoc, singleton_append, append_assoc, singleton_append] at hnumbers
  have hnamed := computePart_of_compute hdouble hsingle hnumbers (.inr ⟨_, _, _, hpair, hcompute, rfl⟩)
  refine ⟨_, h.computePart_text hclosed (pairwise_of_six hsix) (fun _ => 0) hcomputed hsmall j, ?_⟩
  rw [codes_eq_nil_iff hclosed]
  cases hcolours : f.isNumeric with
  | true =>
    rw [hcolours] at hnamed
    exact ⟨iff_of_true hnamed rfl, fun hne => absurd ((codes_eq_nil_iff hclosed).mpr hcolours) hne⟩
  | false =>
    obtain ⟨c, r, rfl⟩ := exists_cons_of_ne_nil hne
    have hnone := readInt?_letter (hletters c mem_cons_self) (r ++ '=' :: Text.ofInt (f.value fun _ => 0))
    rw [← cons_append] at hnone
    rw [hcolours, Bool.not_false, if_pos rfl, hnone] at hnamed
    refine ⟨iff_of_false (fun heq => ?_) Bool.false_ne_true, fun _ => hnamed⟩
    cases hnamed.symm.trans heq

theorem computePart_attribute_width :
    ∃ r, computePart "6 * -7".toList = .ok r ∧ computePart "width=6 * -7".toList = .ok ("width=".toList ++ r) := by
  have hname : "width".toList ≠ [] := by decide
  obtain ⟨r, hr, hiff, _⟩ := computePart_attribute
    (f := .binary .times (.operand (.number 6)) (.negative (.operand (.number 7))))
    (x := [(0, .operand (.number 6)), (1, .operator .times), (1, .operator .minus), (0, .operand (.number 7))])
    hname (by decide) (by decide) (by simp [IsClosed, operands]) rfl (by decide) (by decide +kernel) 0
  exact ⟨r, hr, hiff.mpr rfl⟩

theorem computePart_attribute_colour :
    computePart "#000001+#000002".toList = .ok "#000003".toList ∧
    computePart "bgcolor=#000001+#000002".toList = .error .badValue := by
  decide +kernel

end Formula
end OutlineMarkup
