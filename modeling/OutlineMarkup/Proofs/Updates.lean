import OutlineMarkup.Proofs.Evaluation
import OutlineMarkup.Proofs.QuotedAssignments
import OutlineMarkup.Proofs.Statements

/-!
# Updates of variables

Lines that assign the value of a formula to a variable, plainly or by a compound operator. In a method
such a line is kept with its operator written out, and running it sets the variable and yields no
line.
-/

namespace OutlineMarkup
open List Text Compile Assignment Expression Operand

/-! ## Words that declare verbatim blocks -/

/-- A word that makes a line declare a verbatim block. -/
def isDeclaring (w : Text) : Bool := w == "verbatim" || w == "verbatim_line" || w == "code_block"

namespace Compile
variable {a b : Text} {c : Char}

theorem declaresVerbatim_word (ha : ∀ d ∈ a, isWordChar d) : declaresVerbatim a = isDeclaring a := by
  rw [declaresVerbatim, pieces_of_forall_not fun d hd => by simp [ha d hd]]
  simp [isDeclaring]

theorem declaresVerbatim_append_cons (ha : ∀ d ∈ a, isWordChar d) (hc : isWordChar c = false) :
    declaresVerbatim (a ++ c :: b) = (isDeclaring a || declaresVerbatim b) := by
  rw [declaresVerbatim, pieces_append_cons (fun d hd => by simp [ha d hd]) (by simp [hc])]
  rfl

theorem declaresVerbatim_cons (hc : isWordChar c = false) : declaresVerbatim (c :: b) = declaresVerbatim b :=
  declaresVerbatim_append_cons (a := []) (by simp) hc

theorem declaresVerbatim_spaces (n : Nat) (b : Text) :
    declaresVerbatim (replicate n ' ' ++ b) = declaresVerbatim b := by
  induction n with
  | zero => rfl
  | succ n ih =>
    rw [replicate_succ, cons_append, declaresVerbatim_cons rfl]
    exact ih

theorem declaresVerbatim_append (ha : ∀ d ∈ a, isWordChar d) (hb : ∀ d ∈ b.head?, isWordChar d = false) :
    declaresVerbatim (a ++ b) = (isDeclaring a || declaresVerbatim b) := by
  cases b with
  | nil =>
    have hnil : declaresVerbatim [] = false := rfl
    rw [append_nil, declaresVerbatim_word ha, hnil, Bool.or_false]
  | cons c b =>
    rw [declaresVerbatim_append_cons ha (hb c rfl), declaresVerbatim_cons (hb c rfl)]

end Compile

namespace Operand

def word : Operand → Text
  | number n => Text.ofNat n
  | reference name => name
  | colour code => code

theorem isWordChar_of_mem_word {o : Operand} (ho : o.isSound) {c : Char} (hc : c ∈ o.word) :
    isWordChar c := by
  cases o with
  | number n => exact isWordChar_of_mem_ofNat hc
  | reference name =>
    obtain ⟨_, _, _, _, hname⟩ := Template.isName_iff.mp ho
    exact hname c hc
  | colour code =>
    simp only [isSound, Bool.and_eq_true, all_eq_true] at ho
    exact isWordChar_of_isHexDigit (ho.1 c hc)

theorem isDeclaring_word {o : Operand} (ho : o.isSound)
    (hname : ∀ name, o = .reference name → isDeclaring name = false) : isDeclaring o.word = false := by
  have hclass : ∀ {p : Char → Bool} {w : Text}, (∀ c ∈ w, p c) → p 'v' = false → p 'o' = false →
      isDeclaring w = false := by
    intro p w hw hv ho
    have hfree : 'v' ∉ w ∧ 'o' ∉ w := ⟨not_mem_of_all hw hv, not_mem_of_all hw ho⟩
    rw [← Bool.not_eq_true]
    intro hd
    simp only [isDeclaring, Bool.or_eq_true, beq_iff_eq] at hd
    rcases hd with (rfl | rfl) | rfl
    · exact hfree.1 (by decide)
    · exact hfree.1 (by decide)
    · exact hfree.2 (by decide)
  cases o with
  | number n => exact hclass (fun c hc => isDigit_of_mem_ofNat hc) rfl rfl
  | reference name => exact hname name rfl
  | colour code =>
    simp only [isSound, Bool.and_eq_true, all_eq_true] at ho
    exact hclass ho.1 (by decide) (by decide)

end Operand

variable {x : Spelling} {f : Formula}

theorem declaresVerbatim_text (hapart : x.IsChain fun y z => y.2.areApart z.2)
    (hx : ∀ k o, (k, Symbol.operand o) ∈ x → o.isSound ∧ isDeclaring o.word = false) :
    declaresVerbatim x.text = false := by
  induction x with
  | nil => rfl
  | cons y x ih =>
    obtain ⟨k, s⟩ := y
    obtain ⟨hy, hchain⟩ := isChain_cons.mp hapart
    have hrest := ih hchain fun k o ho => hx k o (.tail _ ho)
    rw [text_cons, declaresVerbatim_spaces]
    cases s with
    | operand o =>
      obtain ⟨hsound, hword⟩ := hx k o mem_cons_self
      have hends : ∀ c ∈ (Spelling.text x).head?, isWordChar c = false := fun c hc =>
        (ends_text (s := .operand o) hy 0 c (by rwa [replicate_zero, append_nil])).1
      have happend := declaresVerbatim_append
        (fun c hc => isWordChar_of_mem_word hsound hc) hends
      rw [hword, hrest] at happend
      cases o with
      | number n => exact happend
      | reference name | colour code => exact (declaresVerbatim_cons rfl).trans happend
    | operator o => cases o <;> exact (declaresVerbatim_cons rfl).trans hrest
    | opening | closing => exact (declaresVerbatim_cons rfl).trans hrest

/-! ## Writing an update -/

def Spelling.flush : Spelling → Spelling
  | [] => []
  | (_, s) :: x => (0, s) :: x

/-- The assignment of a formula to a variable, with the spaces before its sign. -/
structure Update where
  target : Text
  space : Nat
  operator : Option Operator
  formula : Formula
  spelling : Spelling
  deriving Repr, DecidableEq

namespace Update

def sign (w : Update) : Text :=
  match w.operator with
  | none => ":="
  | some o => [o.char, '=']

def written (w : Update) : Text :=
  ('$' :: w.target) ++ (List.replicate w.space ' ' ++ (w.sign ++ w.spelling.text))

def full (w : Update) : Formula :=
  match w.operator with
  | none => w.formula
  | some o => .binary o (.operand (.reference w.target)) (.group w.formula)

def fullSpelling (w : Update) : Spelling :=
  match w.operator with
  | none => w.spelling.flush
  | some o =>
    (0, .operand (.reference w.target)) :: (1, .operator o) :: (1, .opening) :: (w.spelling ++ [(0, .closing)])

/-- What the update makes of variables with whole numbers. -/
def run (w : Update) (env : Text → Int) : Text → Int := Function.update env w.target (w.full.value env)

@[mk_iff]
structure IsSound (w : Update) : Prop where
  target : w.target.isName = true
  spelled : w.formula.IsSpelled w.spelling

instance (w : Update) : Decidable w.IsSound := decidable_of_iff' _ (isSound_iff w)

end Update

theorem Formula.IsSpelled.flush (h : f.IsSpelled x) : f.IsSpelled x.flush ∧ ∀ y ∈ x.flush.head?, y.1 = 0 := by
  cases x with
  | nil => exact ⟨h, by simp [Spelling.flush]⟩
  | cons y x =>
    refine ⟨⟨h.fits, h.operands, h.signs⟩, fun z hz => ?_⟩
    obtain rfl : (0, y.2) = z := Option.some.inj hz
    rfl

theorem Formula.IsSpelled.trim_text (h : f.IsSpelled x) {e : Text}
    (he : ∀ c ∈ e, isBlank c) : trim (x.text ++ e) = x.flush.text := by
  obtain ⟨hflush, hhead⟩ := h.flush
  have hsolid := hflush.solid hhead
  cases x with
  | nil => exact absurd h.signs.symm f.signs_ne_nil
  | cons y x =>
    obtain ⟨k, s⟩ := y
    have hspace : ∀ c ∈ replicate k ' ', isBlank c := fun c hc => (mem_replicate.mp hc).2 ▸ rfl
    have htext : Spelling.text (Spelling.flush ((k, s) :: x)) = s.written ++ Spelling.text x := by
      simp [Spelling.flush, Spelling.text]
    rw [htext] at hsolid ⊢
    rw [Expression.text_cons, append_assoc]
    exact trim_append_solid hspace he hsolid

theorem Formula.IsSpelled.count_text (h : f.IsSpelled x) : x.text.count '(' = x.text.count ')' := by
  have hsign : ∀ y ∈ x, y.2.written.count '(' = [y.2].count .opening ∧
      y.2.written.count ')' = [y.2].count .closing := by
    rintro ⟨k, s⟩ hy
    cases s with
    | operand o =>
      have hclass : ∀ c ∈ o.written, (isWordChar c || c == '$' || c == '#') := fun c hc =>
        mem_written (h.operands o (h.operand_of_mem hy)) hc
      have hfree : ∀ c : Char, (isWordChar c || c == '$' || c == '#') = false → o.written.count c = 0 :=
        fun c hc => count_eq_zero.mpr
          (not_mem_of_all (p := fun c => isWordChar c || c == '$' || c == '#') hclass hc)
      exact ⟨hfree _ (by decide), hfree _ (by decide)⟩
    | operator o => cases o <;> exact ⟨rfl, rfl⟩
    | opening | closing => exact ⟨rfl, rfl⟩
  have hcount : ∀ x : Spelling, (∀ y ∈ x, y.2.written.count '(' = [y.2].count .opening ∧
      y.2.written.count ')' = [y.2].count .closing) →
      x.text.count '(' = (x.map (·.2)).count .opening ∧ x.text.count ')' = (x.map (·.2)).count .closing := by
    intro x
    induction x with
    | nil => exact fun _ => ⟨rfl, rfl⟩
    | cons y x ih =>
      intro hx
      obtain ⟨k, s⟩ := y
      obtain ⟨ho, hc⟩ := hx _ mem_cons_self
      obtain ⟨iho, ihc⟩ := ih (forall_mem_cons.mp hx).2
      rw [text_cons, map_cons, ← singleton_append (l := x.map (·.2))]
      simp only [count_append, ho, hc, iho, ihc, count_replicate]
      simp
  obtain ⟨ho, hc⟩ := hcount x hsign
  rw [ho, hc, h.signs, f.count_signs]

/-! ## Writing operators out -/

theorem Operator.mem_operators (o : Operator) : ([o.char, '='], o.char) ∈ operators := by
  cases o <;> decide

namespace Update
variable {w : Update} {e : Text} {vars : Variables} {c : Char}

section Sound
variable (h : w.IsSound)
include h

theorem equals_not_mem_target : '=' ∉ ('$' :: w.target) ++ replicate w.space ' ' := by
  obtain ⟨_, _, _, _, hname⟩ := Template.isName_iff.mp h.target
  have htarget : '=' ∉ w.target := not_mem_of_all hname (by decide)
  simp [htarget]

theorem isSpelled_full : w.full.IsSpelled w.fullSpelling ∧ ∀ y ∈ w.fullSpelling.head?, y.1 = 0 := by
  unfold full fullSpelling
  split
  · exact h.spelled.flush
  · rename_i o _
    refine ⟨⟨?_, ?_, ?_⟩, by simp⟩
    · have ho : o.level ≤ 12 ∧ o.level < 12 := by cases o <;> decide
      simp [Formula.fits, Formula.level, h.spelled.fits, ho]
    · intro p hp
      rcases mem_cons.mp hp with rfl | hp
      · exact h.target
      · exact h.spelled.operands p hp
    · simp [Formula.signs, h.spelled.signs]

theorem solid_target : Solid ('$' :: w.target) := by
  obtain ⟨_, _, _, _, hname⟩ := Template.isName_iff.mp h.target
  refine solid_of_forall (cons_ne_nil _ _) fun c hc => ?_
  rcases mem_cons.mp hc with rfl | hc
  · rfl
  · exact isBlank_eq_false_of_isWordChar (hname c hc)

theorem trim_target : trim (('$' :: w.target) ++ replicate w.space ' ') = '$' :: w.target :=
  trim_append_solid (a := []) (by simp) (fun _ hc => (mem_replicate.mp hc).2 ▸ rfl) (solid_target h)

theorem count_target (hc : isWordChar c = false) (hsign : c ≠ '$' ∧ c ≠ ' ') :
    (('$' :: w.target) ++ replicate w.space ' ').count c = 0 := by
  obtain ⟨_, _, _, _, hname⟩ := Template.isName_iff.mp h.target
  refine count_eq_zero.mpr fun hm => ?_
  rcases mem_append.mp hm with hm | hm
  · rcases mem_cons.mp hm with rfl | hm
    · exact hsign.1 rfl
    · exact not_mem_of_all hname hc hm
  · exact hsign.2 (mem_replicate.mp hm).2

theorem equals_not_mem_spelling (he : LineEnd e) : '=' ∉ w.spelling.text ++ e := by
  simp [h.spelled.not_mem_text (c := '=') (by decide), he.not_mem (c := '=') (by decide)]

theorem expand_plain (ho : w.operator = none) (he : LineEnd e) : expand (w.written ++ e) =
      (('$' :: w.target) ++ replicate w.space ' ') ++ ':' :: '=' :: (w.spelling.text ++ e) := by
  have hline : w.written ++ e =
      (('$' :: w.target) ++ replicate w.space ' ') ++ ':' :: '=' :: (w.spelling.text ++ e) := by
    simp [written, sign, ho]
  have hcount : ∀ c : Char, isWordChar c = false → c ≠ '$' ∧ c ≠ ' ' → c ≠ ':' → c ≠ '=' → c ≠ '\n' →
      count c ((('$' :: w.target) ++ replicate w.space ' ') ++ ':' :: '=' :: (w.spelling.text ++ e)) =
        w.spelling.text.count c := by
    intro c hword hsign hcolon hequals hfeed
    rw [count_append, count_target h hword hsign, count_cons_of_ne (Ne.symm hcolon),
      count_cons_of_ne (Ne.symm hequals), count_append, count_eq_zero.mpr (he.not_mem hfeed)]
    omega
  rw [expand_eq, hline, written_plain _ (equals_not_mem_target h) (equals_not_mem_spelling h he), if_neg]
  rw [hcount '(' rfl (by decide) (by decide) (by decide) (by decide),
    hcount ')' rfl (by decide) (by decide) (by decide) (by decide), h.spelled.count_text]
  exact Nat.lt_irrefl _

theorem expand_compound {o : Operator} (ho : w.operator = some o) (he : LineEnd e) :
    Assignment.expand (w.written ++ e) = (('$' :: w.target) ++ replicate w.space ' ') ++
      ':' :: '=' :: ((' ' :: w.fullSpelling.text) ++ ['\n']) := by
  have hline : w.written ++ e =
      (('$' :: w.target) ++ replicate w.space ' ') ++ o.char :: '=' :: (w.spelling.text ++ e) := by
    simp [written, sign, ho]
  have htext := equals_not_mem_spelling h he
  have htarget : '=' ∉ '$' :: w.target := fun hm => equals_not_mem_target h (mem_append_left _ hm)
  have hfull : w.fullSpelling.text = ('$' :: w.target) ++ ([' ', o.char, ' ', '('] ++ (w.spelling.text ++ [')'])) := by
    simp [fullSpelling, ho, Spelling.text, Symbol.written, Operand.written]
  -- Up to the closing parenthesis, which is still missing.
  let unclosed : Text := (('$' :: w.target) ++ replicate w.space ' ') ++
    ':' :: '=' :: (' ' :: (('$' :: w.target) ++ ([' ', o.char, ' ', '('] ++ w.spelling.text)))
  have hwritten : Assignment.written (Assignment.target (w.written ++ e)) Assignment.operators (w.written ++ e) =
      unclosed ++ e := by
    rw [hline, target_compound o.mem_operators (equals_not_mem_target h) htext, trim_target h,
      written_compound o.mem_operators (equals_not_mem_target h) htext htarget]
    simp [unclosed]
  have hcount : ∀ c : Char, isWordChar c = false → c ≠ '$' ∧ c ≠ ' ' → c ∉ [':', '=', '\n', o.char] →
      count c (unclosed ++ e) = [c].count '(' + w.spelling.text.count c := by
    intro c hword hsign hother
    simp only [mem_cons, not_mem_nil, or_false, not_or] at hother
    obtain ⟨hcolon, hequals, hfeed, hop⟩ := hother
    have hleft := count_target h hword hsign
    have hname : ('$' :: w.target).count c = 0 := by
      rw [count_append] at hleft
      omega
    rw [count_append, count_eq_zero.mpr (he.not_mem hfeed)]
    simp only [unclosed, count_append, hname, count_cons_of_ne (Ne.symm hcolon),
      count_cons_of_ne (Ne.symm hequals), count_cons_of_ne (Ne.symm hsign.2),
      count_cons_of_ne (Ne.symm hop)]
    rw [count_append] at hleft
    rw [count_singleton, count_singleton, Bool.beq_comm]
    omega
  have hopen : (unclosed ++ e).count '(' > (unclosed ++ e).count ')' := by
    have hchar : ∀ c : Char, c ∈ ['(', ')'] → c ∉ [':', '=', '\n', o.char] := by
      cases o <;> decide
    rw [hcount '(' rfl (by decide) (hchar _ (by decide)), hcount ')' rfl (by decide) (hchar _ (by decide)),
      h.spelled.count_text]
    simp
  have hsolid : Solid unclosed := by
    obtain ⟨c, hc, hblank⟩ := h.spelled.last_text
    refine ⟨⟨'$', rfl, rfl⟩, c, ?_, hblank⟩
    simp only [unclosed, getLast?_append, getLast?_cons, hc]
    rfl
  rw [Assignment.expand_eq, hwritten, if_pos hopen, trimRight_append_solid he.isBlank hsolid, hfull]
  simp [unclosed]

theorem split_expand (he : LineEnd e) : ∃ a b,
    (Assignment.expand (w.written ++ e)).split Assignment.sign = [a, b] ∧
      a.trim = '$' :: w.target ∧ b.trim = w.fullSpelling.text := by
  have hleft := equals_not_mem_target h
  cases ho : w.operator with
  | none =>
    refine ⟨_, w.spelling.text ++ e, ?_, trim_target h, ?_⟩
    · rw [expand_plain h ho he]
      exact split_pair (by decide) hleft (equals_not_mem_spelling h he)
    · rw [h.spelled.trim_text he.isBlank, fullSpelling, ho]
  | some o =>
    obtain ⟨hfull, hhead⟩ := isSpelled_full h
    have hright : '=' ∉ (' ' :: w.fullSpelling.text) ++ ['\n'] := by
      simp [hfull.not_mem_text (c := '=') (by decide)]
    refine ⟨_, (' ' :: w.fullSpelling.text) ++ ['\n'], ?_, trim_target h, ?_⟩
    · rw [expand_compound h ho he]
      exact split_pair (by decide) hleft hright
    · exact trim_append_solid (a := [' ']) (b := ['\n']) (by simp [isBlank]) (by simp [isBlank])
        (hfull.solid hhead)

theorem runLine_eq (he : LineEnd e) (marked : List Text) :
    Method.runLine vars ⟨false, Assignment.expand (w.written ++ e), marked⟩ =
      (Method.evaluate vars w.fullSpelling.text).map fun value => (none, vars.set ('$' :: w.target) value) := by
  obtain ⟨a, b, hsplit, ha, hb⟩ := split_expand h he
  rw [Method.runLine]
  simp only [hsplit, ha, hb, Bool.false_eq_true, if_false]
  cases Method.evaluate vars w.fullSpelling.text <;> rfl

/-! ## The line of an update -/

theorem solid_written : Solid w.written := by
  obtain ⟨c, hc, hblank⟩ := h.spelled.last_text
  refine ⟨⟨'$', rfl, rfl⟩, c, ?_, hblank⟩
  simp only [written, getLast?_append, hc]
  rfl

theorem mem_written (hc : c ∈ w.written) : (isFormulaChar c || c == ':' || c == '=') := by
  obtain ⟨_, _, _, _, hname⟩ := Template.isName_iff.mp h.target
  simp only [written, mem_append] at hc
  rcases hc with hc | hc | hc | hc
  · rcases mem_cons.mp hc with rfl | hc
    · rfl
    · simp [isFormulaChar, hname c hc]
  · rw [(mem_replicate.mp hc).2]
    rfl
  · have hsign : w.sign = [':', '='] ∨ ∃ o : Operator, w.sign = [o.char, '='] := by
      unfold sign
      cases w.operator with
      | none => exact .inl rfl
      | some o => exact .inr ⟨o, rfl⟩
    rcases hsign with hs | ⟨o, hs⟩
    · rw [hs] at hc
      rcases mem_cons.mp hc with rfl | hc
      · rfl
      · rw [mem_singleton.mp hc]
        rfl
    · rw [hs] at hc
      rcases mem_cons.mp hc with rfl | hc
      · cases o <;> rfl
      · rw [mem_singleton.mp hc]
        rfl
  · simp [h.spelled.isFormulaChar_of_mem_text hc]

theorem not_mem_written (hc : (isFormulaChar c || c == ':' || c == '=') = false) : c ∉ w.written :=
  not_mem_of_all (p := fun c => isFormulaChar c || c == ':' || c == '=') (fun _ hd => mem_written h hd) hc

theorem bracket_not_mem {k : Nat} (hu : isUnit u) (he : LineEnd e) : '[' ∉ sourceLine u k w.written e := by
  simp only [sourceLine, mem_append, not_or]
  exact ⟨not_mem_times hu rfl, not_mem_written h (by decide), he.not_mem (by decide)⟩

theorem declaresVerbatim_written (htarget : isDeclaring w.target = false)
    (hnames : ∀ name, .reference name ∈ w.formula.operands → isDeclaring name = false) :
    declaresVerbatim w.written = false := by
  obtain ⟨_, _, _, _, hname⟩ := Template.isName_iff.mp h.target
  have htext : declaresVerbatim w.spelling.text = false :=
    declaresVerbatim_text h.spelled.isChain fun k o ho => by
      have hmem := h.spelled.operand_of_mem ho
      refine ⟨h.spelled.operands o hmem, isDeclaring_word (h.spelled.operands o hmem) ?_⟩
      rintro name rfl
      exact hnames name hmem
  have hsign : declaresVerbatim (w.sign ++ w.spelling.text) = false ∧
      ∀ c ∈ (w.sign ++ w.spelling.text).head?, isWordChar c = false := by
    unfold sign
    cases w.operator with
    | none =>
      refine ⟨?_, fun c hc => Option.some.inj hc ▸ rfl⟩
      exact (declaresVerbatim_cons rfl).trans ((declaresVerbatim_cons rfl).trans htext)
    | some o =>
      have ho : isWordChar o.char = false := by cases o <;> rfl
      refine ⟨?_, fun c hc => Option.some.inj hc ▸ ho⟩
      exact (declaresVerbatim_cons ho).trans ((declaresVerbatim_cons rfl).trans htext)
  have hend : ∀ c ∈ (replicate w.space ' ' ++ (w.sign ++ w.spelling.text)).head?, isWordChar c = false := by
    cases w.space with
    | zero => exact hsign.2
    | succ n => exact fun c hc => Option.some.inj hc ▸ rfl
  rw [written, cons_append, declaresVerbatim_cons rfl, declaresVerbatim_append hname hend,
    htarget, declaresVerbatim_spaces, hsign.1]
  rfl

end Sound

end Update
end OutlineMarkup
