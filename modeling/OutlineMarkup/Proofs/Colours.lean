import OutlineMarkup.Proofs.ColourDigits

/-!
# Colours in formulas

In a line of a method the colours of a formula count as their numbers, and the result is a colour. Elsewhere
the mark of a colour starts a comment, and what stands before the first one is never an expression.
-/

namespace OutlineMarkup
open List Text Arithmetic Colour Operand
variable {code : Text} {c : Char}

open Symbol (token)

/-! ## Formulas that break off -/

namespace Formula
variable {f : Formula} {x : Spelling}

def lead (f : Formula) : List Symbol := f.signs.takeWhile Symbol.isNumeric

theorem lead_of_isNumeric (h : f.isNumeric) (rest : List Symbol) :
    (f.signs ++ rest).takeWhile Symbol.isNumeric = f.signs ++ rest.takeWhile Symbol.isNumeric :=
  takeWhile_append_of_pos fun s hs => isNumeric_signs h s hs

theorem exists_not_isNumeric (h : f.isNumeric = false) : ∃ s ∈ f.signs, s.isNumeric = false := by
  obtain ⟨o, ho, hnumber⟩ := all_eq_false.mp h
  exact ⟨.operand o, mem_operands.mpr ho, Bool.eq_false_iff.mpr hnumber⟩

theorem lead_append (h : f.isNumeric = false) (rest : List Symbol) :
    (f.signs ++ rest).takeWhile Symbol.isNumeric = f.lead := by
  obtain ⟨s, hs, hnot⟩ := exists_not_isNumeric h
  rw [takeWhile_append, if_neg, lead]
  intro hlength
  have hinit : f.signs.takeWhile Symbol.isNumeric <+: f.signs := takeWhile_prefix _
  have hnumeric := takeWhile_eq_self_iff.mp (hinit.eq_of_length hlength) s hs
  rw [hnot] at hnumeric
  cases hnumeric

end Formula

namespace Expression.Expr

theorem startsWithSign_lead (f : Formula) : startsWithSign [')'] (f.lead.map token) = false := by
  induction f with
  | operand o => cases o <;> rfl
  | negative f _ => rfl
  | binary o a b iha _ =>
    rw [Formula.lead, Formula.signs]
    cases ha : a.isNumeric with
    | true =>
      rw [Formula.lead_of_isNumeric ha, map_append]
      exact startsWithSign_signs a _
    | false =>
      rw [Formula.lead_append ha]
      exact iha
  | group f _ => rfl

theorem readLevel_lead {f : Formula} (hfits : f.fits) (hnumeric : f.isNumeric = false) {n l : Nat}
    (hn : 4 * f.lead.length ≤ n) (hl : l ≤ f.level) : readLevel n l (f.lead.map token) = .error .malformed := by
  induction f generalizing n l with
  | operand o =>
    have hlead : (Formula.operand o).lead = [] := by
      cases o with
      | number k => cases hnumeric
      | reference name | colour code => rfl
    rw [hlead]
    cases n with
    | zero => rfl
    | succ n => cases n <;> rfl
  | negative f ih =>
    simp only [Formula.fits, Bool.and_eq_true, decide_eq_true_eq] at hfits
    have hlead : f.negative.lead = .operator .minus :: f.lead := rfl
    rw [hlead, length_cons] at hn
    obtain ⟨n, rfl⟩ : ∃ j, n = j + 1 := ⟨n - 1, by omega⟩
    rw [hlead]
    change (readLevel n unaryLevel (f.lead.map token) >>= _) = _
    rw [unaryLevel, ih hfits.1 hnumeric (by omega) hfits.2]
    rfl
  | binary o a b iha ihb =>
    simp only [Formula.fits, Bool.and_eq_true, decide_eq_true_eq] at hfits
    obtain ⟨⟨⟨hfa, hfb⟩, hla⟩, hlb⟩ := hfits
    change l ≤ o.level at hl
    cases ha : a.isNumeric with
    | false =>
      have hlead : (Formula.binary o a b).lead = a.lead := Formula.lead_append ha _
      rw [hlead] at hn ⊢
      exact iha hfa ha hn (hl.trans hla)
    | true =>
      have hb : b.isNumeric = false := by
        rw [Formula.isNumeric, Formula.operands, all_append, Bool.and_eq_false_iff] at hnumeric
        exact hnumeric.resolve_left (by rw [← Formula.isNumeric, ha]; simp)
      have hlead : (Formula.binary o a b).lead = a.signs ++ .operator o :: b.lead := Formula.lead_of_isNumeric ha _
      rw [hlead, length_append, length_cons] at hn
      -- The left operand is read up to the operator, and the right one breaks off.
      have hoperator : Stops (a.level + 1) (.sign [o.char] :: b.lead.map token) := .inr ⟨o, rfl, by omega⟩
      obtain ⟨m, hm, _, hleft⟩ := readLevel_signs hfa ha (n := n) (by omega) (hl.trans hla) hoperator
      obtain ⟨m, rfl⟩ : ∃ j, m = j + 1 := ⟨m - 1, by omega⟩
      have htokens : (a.signs ++ .operator o :: b.lead).map token =
          a.signs.map token ++ .sign [o.char] :: b.lead.map token := map_append
      rw [hlead, htokens, hleft, readRest_operator o hl, ihb hfb hb (by omega) hlb]
      rfl
  | group f ih =>
    have hinner : f.isNumeric = false := hnumeric
    have hlead : f.group.lead = .opening :: f.lead := by
      change Symbol.opening :: (f.signs ++ [Symbol.closing]).takeWhile Symbol.isNumeric = _
      rw [Formula.lead_append hinner]
    rw [hlead, length_cons] at hn
    obtain ⟨n, rfl⟩ : ∃ j, n = j + 3 := ⟨n - 3, by omega⟩
    have hinside : readLevel n orLevel (f.lead.map token) = .error .malformed :=
      ih hfits hinner (by omega) f.one_le_level
    have hfull : readFull (n + 1) (f.lead.map token) = .error .malformed := by
      rw [readFull, hinside]
      rfl
    have hatom : readAtom (n + 2) (.sign ['('] :: f.lead.map token) = .error .malformed := by
      rw [readAtom, startsWithSign_lead, hfull]
      rfl
    rw [hlead]
    change (readAtom (n + 2) (.sign ['('] :: f.lead.map token) >>= _) = _
    rw [hatom]
    rfl

end Expression.Expr

namespace Formula
variable {f : Formula} {x : Spelling}

theorem IsSpelled.result_eq_malformed (h : f.IsSpelled x) (hliteral : ∀ s ∈ f.signs, s.isLiteral)
    (hnumeric : f.isNumeric = false) : Expression.result x.text = .error .malformed := by
  have hx : ∀ y ∈ x, y.2.isLiteral := fun y hy => hliteral _ (h.signs ▸ mem_map_of_mem hy)
  have hlines : ∀ c ∈ x.text, c ≠ '\n' ∧ c ≠ '\r' := fun c hc =>
    ⟨ne_of_class (h.isFormulaChar_of_mem_text hc) (by decide), ne_of_class (h.isFormulaChar_of_mem_text hc) (by decide)⟩
  have htokens : Expression.tokens x.text = .ok (f.lead.map token) := by
    have htokens := Expression.tokens_text hx hlines h.isChain (ne_nil_of_signs h.signs) 0
    rwa [replicate_zero, append_nil, h.signs] at htokens
  have hread := Expression.Expr.readLevel_lead h.fits hnumeric (n := 4 * (f.lead.map token).length + 3)
    (l := Expression.Expr.orLevel) (by rw [length_map]; omega) f.one_le_level
  have hfull : Expression.Expr.readFull (4 * (f.lead.map token).length + 4) (f.lead.map token) =
      .error .malformed := by
    rw [Expression.Expr.readFull, hread]
    rfl
  have htree : Expression.Expr.read x.text = .error .malformed := by
    rw [Expression.Expr.read, htokens]
    change (Expression.Expr.readFull _ _ >>= _) = _
    rw [hfull]
    rfl
  rw [Expression.result, Expression.compute, htree]
  rfl

end Formula

/-! ## Colours in the text -/

theorem Arithmetic.hexCodes_code {b : Text} (hne : code ≠ []) (hcode : ∀ c ∈ code, isHexDigit c)
    (hb : ∀ c ∈ b.head?, isHexDigit c = false) (hquote : '"' ∉ b) :
    hexCodes ('#' :: (code ++ b)) = code :: hexCodes b := by
  have hnot : ∀ {c : Char}, isHexDigit c = false → c ∉ code := fun hc => not_mem_of_all hcode hc
  have hstop : b.takeWhile isHexDigit = [] := by
    cases b with
    | nil => rfl
    | cons c b => exact takeWhile_cons_of_neg (by simp [hb c rfl])
  have htake : (code ++ b).takeWhile isHexDigit = code := by
    rw [takeWhile_append_of_pos hcode, hstop, append_nil]
  have hempty : code.isEmpty = false := isEmpty_eq_false_iff.mpr hne
  have heven : evenAfter '"' (code ++ b) := by
    simp [evenAfter, count_append, count_eq_zero.mpr hquote, count_eq_zero.mpr (hnot (c := '"') rfl)]
  rw [hexCodes]
  simp only [htake, hempty, heven, beq_self_eq_true, Bool.not_false, Bool.and_self, if_true]
  rw [hexCodes_append (hnot rfl)]

def Operand.code? : Operand → Option Text
  | colour code => some code
  | _ => none

def Symbol.code? : Symbol → Option Text
  | operand o => o.code?
  | _ => none

namespace Formula
variable {f : Formula}

def codes (f : Formula) : List Text := f.operands.filterMap Operand.code?

def IsClosed (f : Formula) : Prop := ∀ name, Operand.reference name ∉ f.operands

theorem filterMap_signs (f : Formula) : f.signs.filterMap Symbol.code? = f.codes := by
  unfold codes
  induction f with
  | operand o => cases o <;> rfl
  | negative f ih => exact ih
  | binary o a b iha ihb =>
    rw [signs, operands, filterMap_append, filterMap_append, iha]
    exact congrArg _ ihb
  | group f ih =>
    rw [signs, operands, ← ih]
    change (f.signs ++ [Symbol.closing]).filterMap Symbol.code? = _
    rw [filterMap_append]
    exact append_nil _

theorem mem_codes : code ∈ f.codes ↔ .colour code ∈ f.operands := by
  rw [codes, mem_filterMap]
  constructor
  · rintro ⟨o, ho, hcode⟩
    cases o with
    | colour c =>
      obtain rfl := Option.some.inj hcode
      exact ho
    | number n | reference name => cases hcode
  · exact fun h => ⟨_, h, rfl⟩

theorem codes_eq_nil_iff (hclosed : f.IsClosed) : f.codes = [] ↔ f.isNumeric := by
  rw [isNumeric, all_eq_true, eq_nil_iff_forall_not_mem]
  constructor
  · intro h o ho
    cases o with
    | number n => rfl
    | reference name => exact absurd ho (hclosed name)
    | colour code => exact absurd (mem_codes.mpr ho) (h code)
  · intro h code hcode
    cases h _ (mem_codes.mp hcode)

theorem IsClosed.isLiteral (h : f.IsClosed) : ∀ s ∈ f.signs, s.isLiteral := by
  intro s hs
  cases s with
  | operand o =>
    cases o with
    | number n => rfl
    | reference name => exact absurd (mem_operands.mp hs) (h name)
    | colour code => rfl
  | operator o | opening | closing => rfl

end Formula

namespace Spelling
variable {x : Spelling} {s : Symbol} {k : Nat}

/-- Signs of numbers and of colours with their digits. -/
structure IsApart (x : Spelling) : Prop where
  chain : x.IsChain fun y z => y.2.areApart z.2 = true
  literal : ∀ y ∈ x, y.2.isLiteral = true
  digits : ∀ y ∈ x, ∀ code ∈ y.2.code?, (∀ c ∈ code, isHexDigit c = true) ∧ (code.length = 3 ∨ code.length = 6)

theorem IsApart.tail {y : Nat × Symbol} (h : IsApart (y :: x)) : IsApart x :=
  ⟨(isChain_cons.mp h.chain).2, (forall_mem_cons.mp h.literal).2, (forall_mem_cons.mp h.digits).2⟩

theorem IsApart.ends (h : IsApart ((k, .operand (.colour code)) :: x)) (j : Nat) :
    ∀ c ∈ (x.text ++ replicate j ' ').head?, isHexDigit c = false := by
  intro c hc
  have hends := Expression.ends_text (s := .operand (.colour code)) (isChain_cons.mp h.chain).1 j c hc
  rw [Bool.eq_false_iff]
  intro hdigit
  rw [isWordChar_of_isHexDigit hdigit] at hends
  cases hends.1

theorem mark_not_mem (hliteral : s.isLiteral) (h : s.code? = none) : '#' ∉ s.written := by
  have hnumeric : s.isNumeric := by
    cases s with
    | operand o =>
      cases o with
      | number n => rfl
      | reference name => cases hliteral
      | colour code => cases h
    | operator o | opening | closing => rfl
  intro hm
  rcases Expression.mem_written_of_isNumeric hnumeric hm with hd | hd
  · cases hd
  · exact absurd hd (by decide)

theorem mark_not_mem_spaces (k : Nat) : '#' ∉ replicate k ' ' := fun hm => absurd (eq_of_mem_replicate hm) (by decide)

theorem eq_colour_of_code? (h : s.code? = some code) : s = .operand (.colour code) := by
  cases s with
  | operand o =>
    cases o with
    | number n | reference name => cases h
    | colour c => rw [Option.some.inj h]
  | operator o | opening | closing => cases h

theorem hexCodes_text (h : x.IsApart) {j : Nat} (hquote : '"' ∉ x.text ++ replicate j ' ') :
    hexCodes (x.text ++ replicate j ' ') = (x.map (·.2)).filterMap Symbol.code? := by
  induction x with
  | nil => simpa [text, hexCodes] using hexCodes_append (mark_not_mem_spaces j) []
  | cons y x ih =>
    obtain ⟨k, s⟩ := y
    rw [Expression.text_cons, append_assoc, append_assoc] at hquote ⊢
    have hrest : '"' ∉ text x ++ replicate j ' ' := fun hm => hquote (mem_append_right _ (mem_append_right _ hm))
    rw [hexCodes_append (mark_not_mem_spaces k), map_cons]
    cases hcode : s.code? with
    | none =>
      rw [hexCodes_append (mark_not_mem (h.literal _ mem_cons_self) hcode), filterMap_cons_none hcode, ih h.tail hrest]
    | some code =>
      obtain rfl := eq_colour_of_code? hcode
      obtain ⟨hhex, hlength⟩ := h.digits _ mem_cons_self code rfl
      rw [filterMap_cons_some hcode, ← ih h.tail hrest]
      exact hexCodes_code (ne_nil_of_length_pos (by omega)) hhex (h.ends j) hrest

/-- Replacing the digits of a colour leaves all other signs as they are, unless a longer colour starts with
these digits. -/
theorem replace_code (h : x.IsApart) (hcode : ∀ c ∈ code, isHexDigit c)
    (hfree : ∀ y ∈ x, ∀ other ∈ y.2.code?, other = code ∨ ¬ code <+: other) (t : Text) (j : Nat) :
    (x.text ++ replicate j ' ').replace ('#' :: code) t = (x.flatMap fun y => replicate y.1 ' ' ++
      if y.2 = .operand (.colour code) then t else y.2.written) ++ replicate j ' ' := by
  induction x with
  | nil =>
    have hspaces := replace_append (mark_not_mem_spaces j) [] code t
    rw [append_nil] at hspaces
    exact hspaces.trans (append_nil _)
  | cons y x ih =>
    obtain ⟨k, s⟩ := y
    have hrest := ih h.tail (forall_mem_cons.mp hfree).2
    rw [Expression.text_cons, append_assoc, append_assoc, replace_append (mark_not_mem_spaces k), flatMap_cons,
      append_assoc, append_assoc, ← hrest]
    congr 1
    dsimp only
    by_cases hs : s = .operand (.colour code)
    · subst hs
      rw [if_pos rfl]
      exact replace_append_self (cons_ne_nil _ _) _ _
    · rw [if_neg hs]
      cases hother : s.code? with
      | none => exact replace_append (mark_not_mem (h.literal _ mem_cons_self) hother) _ _ _
      | some other =>
        obtain rfl := eq_colour_of_code? hother
        have hnot := (hfree _ mem_cons_self other rfl).resolve_left fun heq => hs (by rw [heq])
        have hinit : ('#' :: code).isPrefixOf ('#' :: (other ++ (text x ++ replicate j ' '))) = false := by
          rw [← Bool.not_eq_true, isPrefixOf_iff_prefix, cons_prefix_cons]
          rintro ⟨_, hpre⟩
          by_cases hle : code.length ≤ other.length
          · exact hnot (prefix_of_prefix_length_le hpre (prefix_append _ _) hle)
          · -- The digits would go on behind the other colour.
            obtain ⟨r, rfl⟩ := prefix_of_prefix_length_le (prefix_append other _) hpre (by omega)
            rw [prefix_append_right_inj] at hpre
            obtain ⟨r', hr'⟩ := hpre
            cases r with
            | nil => simp at hle
            | cons c r =>
              have hdigit := hcode c (by simp)
              rw [h.ends j c (by rw [← hr']; rfl)] at hdigit
              cases hdigit
        change replace ('#' :: (other ++ _)) ('#' :: code) t = '#' :: (other ++ _)
        rw [Text.replace_cons, hinit, if_neg Bool.false_ne_true,
          replace_append (not_mem_of_all (h.digits _ mem_cons_self other rfl).1 rfl)]

end Spelling

/-! ## Computing with colours -/

def Operand.recoded (code : Text) (n : Nat) (o : Operand) : Formula :=
  if o = .colour code then .operand (.number n) else .operand o

namespace Formula
variable {f : Formula} {x : Spelling}

theorem IsSpelled.digits (h : f.IsSpelled x) (hcode : code ∈ f.codes) :
    (∀ c ∈ code, isHexDigit c) ∧ (code.length = 3 ∨ code.length = 6) := by
  have hsound := h.operands _ (mem_codes.mp hcode)
  simpa [Operand.isSound, all_eq_true] using hsound

theorem IsSpelled.mem_codes_of_mem (h : f.IsSpelled x) {y : Nat × Symbol} (hy : y ∈ x)
    (hcode : code ∈ y.2.code?) : code ∈ f.codes := by
  rw [← filterMap_signs, ← h.signs, mem_filterMap]
  exact ⟨y.2, mem_map_of_mem hy, hcode⟩

theorem IsSpelled.isApart (h : f.IsSpelled x) (hclosed : f.IsClosed) : x.IsApart :=
  ⟨h.isChain, fun _ hy => hclosed.isLiteral _ (h.signs ▸ mem_map_of_mem hy),
    fun _ hy _ hcode => h.digits (h.mem_codes_of_mem hy hcode)⟩

theorem text_recoded (x : Spelling) (code : Text) (n : Nat) : (x.bind (Operand.recoded code n)).text =
      x.flatMap fun y => replicate y.1 ' ' ++ if y.2 = .operand (.colour code) then ofNat n else y.2.written := by
  rw [text_bind]
  refine flatMap_congr fun y _ => congrArg _ ?_
  obtain ⟨k, s⟩ := y
  cases s with
  | operand o =>
    by_cases ho : o = .colour code
    · subst ho
      simp [Symbol.bind, Operand.recoded, signs, Symbol.written, Operand.written]
    · simp [Symbol.bind, Operand.recoded, signs, ho]
  | operator o | opening | closing => simp [Symbol.bind]

theorem mem_operands_recoded {n : Nat} {o : Operand} (h : o ∈ (f.bind (Operand.recoded code n)).operands) :
    o = .number n ∨ (o ∈ f.operands ∧ o ≠ .colour code) := by
  rw [operands_bind] at h
  obtain ⟨p, hp, ho⟩ := mem_flatMap.mp h
  unfold Operand.recoded at ho
  split at ho
  · exact .inl (mem_singleton.mp ho)
  · rename_i hne
    obtain rfl := mem_singleton.mp ho
    exact .inr ⟨hp, hne⟩

theorem IsSpelled.recoded (h : f.IsSpelled x) (code : Text) (n : Nat) :
    (f.bind (Operand.recoded code n)).IsSpelled (x.bind (Operand.recoded code n)) := by
  refine h.bind (fun o _ => ?_) fun o ho p hp => ?_
  · unfold Operand.recoded
    split <;> exact ⟨rfl, Nat.le_succ 11⟩
  · unfold Operand.recoded at hp
    split at hp
    · rw [mem_singleton.mp hp]
      rfl
    · rw [mem_singleton.mp hp]
      exact h.operands o ho

/-- One colour after another is replaced by its number, if no colour is the beginning of a later one. -/
theorem IsSpelled.replace_codes (h : f.IsSpelled x) (hclosed : f.IsClosed) {codes : List Text}
    (hcodes : ∀ code ∈ codes, (∀ c ∈ code, isHexDigit c) ∧ (code.length = 3 ∨ code.length = 6))
    (hpairs : codes.Pairwise fun c d => c ≠ d → ¬ c <+: d) (hcover : ∀ c ∈ f.codes, c ∈ codes) (env : Text → Int)
    {before : Text} (hmark : '#' ∉ before) (j : Nat) :
    ∃ (g : Formula) (y : Spelling), codes.foldlM (fun (p : Text) h => do
        return p.replace ('#' :: h) (Text.ofInt (← Colour.toNumber h))) (before ++ (x.text ++ replicate j ' ')) =
        (.ok (before ++ (y.text ++ replicate j ' ')) : Except Fault Text) ∧
      g.IsSpelled y ∧ g.isNumeric ∧ g.value env = f.value env ∧ (f.isSmall env → g.isSmall env) := by
  induction codes generalizing f x with
  | nil => exact ⟨f, x, rfl, h, (codes_eq_nil_iff hclosed).mp (eq_nil_iff_forall_not_mem.mpr fun c hc =>
      not_mem_nil (hcover c hc)), rfl, id⟩
  | cons code codes ih =>
    obtain ⟨hhex, hlength⟩ := hcodes code mem_cons_self
    obtain ⟨hhead, htail⟩ := pairwise_cons.mp hpairs
    have hn := Colour.toNumber_digits hhex hlength
    generalize Colour.base16 (Colour.sixDigits code) = n at hn
    have hfree : ∀ y ∈ x, ∀ other ∈ y.2.code?, other = code ∨ ¬ code <+: other := by
      intro y hy other hother
      by_cases heq : other = code
      · exact .inl heq
      · have hmem := (mem_cons.mp (hcover other (h.mem_codes_of_mem hy hother))).resolve_left heq
        exact .inr (hhead other hmem fun hsame => heq hsame.symm)
    have hclosed' : (f.bind (Operand.recoded code n)).IsClosed := by
      intro name hname
      rcases mem_operands_recoded hname with hname | ⟨hname, _⟩
      · cases hname
      · exact hclosed name hname
    have hcover' : ∀ c ∈ (f.bind (Operand.recoded code n)).codes, c ∈ codes := by
      intro c hc
      rcases mem_operands_recoded (mem_codes.mp hc) with hc | ⟨hc, hne⟩
      · cases hc
      · refine (mem_cons.mp (hcover c (mem_codes.mpr hc))).resolve_left ?_
        rintro rfl
        exact hne rfl
    have hnumber : ∀ o ∈ f.operands, (o.recoded code n).value env = o.value env := by
      intro o _
      unfold Operand.recoded
      split
      · rename_i heq
        rw [heq]
        change (n : Int) = (Colour.toNumber code).toOption.getD 0
        rw [hn]
        rfl
      · rfl
    have hword : ∀ o ∈ f.operands, (o.recoded code n).isSmall env = fitsWord ((o.recoded code n).value env) ∧
        (o.isNumber → (o.recoded code n).isNumeral) := by
      intro o _
      unfold Operand.recoded
      split
      · exact ⟨rfl, fun _ => rfl⟩
      · exact ⟨rfl, id⟩
    obtain ⟨g, y, hfold, hg, hnumeric, hvalue, hsmall⟩ := ih (h.recoded code n) hclosed'
      (forall_mem_cons.mp hcodes).2 htail hcover'
    refine ⟨g, y, ?_, hg, hnumeric, hvalue.trans (value_bind hnumber), hsmall ∘ isSmall_bind hnumber hword⟩
    have hstep : (before ++ (x.text ++ replicate j ' ')).replace ('#' :: code) (Text.ofInt n) =
        before ++ ((x.bind (Operand.recoded code n)).text ++ replicate j ' ') := by
      rw [replace_append hmark, Spelling.replace_code (h.isApart hclosed) hhex hfree, text_recoded]
      rfl
    rw [foldlM_cons, hn, ← hfold, ← hstep]
    rfl

theorem IsSpelled.not_mem_spaced (h : f.IsSpelled x) (hc : isFormulaChar c = false) (j : Nat) :
    c ∉ x.text ++ replicate j ' ' := by
  intro hm
  rcases mem_append.mp hm with hm | hm
  · exact h.not_mem_text hc hm
  · rw [eq_of_mem_replicate hm] at hc
    cases hc

section Closed
variable (h : f.IsSpelled x) (hclosed : f.IsClosed) (hpairs : f.codes.Pairwise fun c d => c ≠ d → ¬ c <+: d)
  (env : Text → Int)
include h hclosed hpairs

/-- The text of a formula with numbers in the place of its colours, and whether there are any. -/
theorem IsSpelled.withColourNumbers_text {before : Text} (hmark : '#' ∉ before) (hquote : '"' ∉ before) (j : Nat) :
    ∃ (g : Formula) (y : Spelling), withColourNumbers (before ++ (x.text ++ replicate j ' ')) =
        .ok (!f.isNumeric, before ++ (y.text ++ replicate j ' ')) ∧
      g.IsSpelled y ∧ g.isNumeric ∧ g.value env = f.value env ∧ (f.isSmall env → g.isSmall env) := by
  obtain ⟨g, y, hfold, hg⟩ := h.replace_codes hclosed (fun _ hc => h.digits hc) hpairs (fun _ hc => hc) env hmark j
  have hcodes : (hexCodes (before ++ (x.text ++ replicate j ' '))).filter (fun c => c.length == 3 || c.length == 6) =
      f.codes := by
    rw [hexCodes_append hmark, Spelling.hexCodes_text (h.isApart hclosed) (h.not_mem_spaced (by decide) j), h.signs,
      filterMap_signs]
    exact filter_eq_self.mpr fun c hc => by simpa using (h.digits hc).2
  have hwords : quotedWords 0 (before ++ (x.text ++ replicate j ' ')) = [] := by
    rw [quotedWords_append hquote]
    simpa [quotedWords] using quotedWords_append (h.not_mem_spaced (c := '"') (by decide) j) []
  have hcoloured : f.codes.isEmpty = f.isNumeric := by
    rw [Bool.eq_iff_iff, List.isEmpty_iff, codes_eq_nil_iff hclosed]
  refine ⟨g, y, ?_, hg⟩
  rw [withColourNumbers, hwords]
  simp only [hcodes, filter_nil, isEmpty_nil, Bool.not_true, Bool.false_or, hcoloured]
  change ((List.foldlM _ _ f.codes : Except Fault Text) >>= _) = _
  rw [hfold]
  rfl

omit hclosed hpairs in
theorem IsSpelled.hasOperator_text (hcomputed : f.isComputed) {q : Char} (hq : isFormulaChar q = false)
    {before : Text} (hbefore : q ∉ before) (j : Nat) : hasOperator q (before ++ (x.text ++ replicate j ' ')) := by
  rw [hasOperator_eq_any fun hm => (mem_append.mp hm).elim hbefore (h.not_mem_spaced hq j), any_append, any_append,
    h.any_text, hcomputed]
  simp

/-- A formula with colours is computed with their numbers, and the result is a colour. -/
theorem IsSpelled.computePart_text (hcomputed : f.isComputed) (hsmall : f.isSmall env) (j : Nat) :
    Arithmetic.computePart (x.text ++ replicate j ' ') = .ok (if f.isNumeric then Text.ofInt (f.value env)
      else '#' :: Colour.ofNumber (Colour.clamp (f.value env))) := by
  obtain ⟨g, y, hnumbers, hg, hnumeric, hvalue, hword⟩ := h.withColourNumbers_text hclosed hpairs env not_mem_nil not_mem_nil j
  have hname : nameAndValue? (y.text ++ replicate j ' ') = none :=
    nameAndValue?_eq_none (hg.not_mem_spaced (by decide) j)
  have hcompute : compute (y.text ++ replicate j ' ') = .ok (Text.ofInt (f.value env)) := by
    rw [compute, result_text hg.fits hnumeric hg.signs (hword hsmall), hvalue]
  rw [← nil_append (x.text ++ _), computePart_of_compute (h.hasOperator_text hcomputed (by decide) not_mem_nil j)
    (h.hasOperator_text hcomputed (by decide) not_mem_nil j) hnumbers (.inl ⟨hname, hcompute⟩), readInt?_ofInt]
  cases f.isNumeric <;> rfl

end Closed
end Formula
end OutlineMarkup
