import OutlineMarkup.Proofs.Formulas
import OutlineMarkup.Proofs.Items

/-!
# Values of formulas

In the text of a formula the variables are replaced by their values, and then it is computed. The text
with the values in it is that of another formula, in which a variable has become a number, with a
minus sign in front if it is negative; so the result is the value of the formula.
-/

namespace OutlineMarkup
open List Text Arithmetic Template
variable {c : Char} {o : Operand}

open Expression (mem_text head?_written text_cons)

namespace Operand

/-- Variables have names, and colours three or six digits. -/
def isSound : Operand → Bool
  | number _ => true
  | reference name => name.isName
  | colour code => code.all Arithmetic.isHexDigit && (code.length == 3 || code.length == 6)

def isColour : Operand → Bool
  | colour _ => true
  | _ => false

end Operand

namespace Formula

def isComputed : Formula → Bool
  | operand _ => false
  | negative _ => true
  | binary _ _ _ => true
  | group f => f.isComputed

def isOperand : Formula → Bool
  | operand _ => true
  | _ => false

def ofInt : Int → Formula
  | .ofNat n => operand (.number n)
  | .negSucc n => negative (operand (.number (n + 1)))

def bind (σ : Operand → Formula) : Formula → Formula
  | operand o => σ o
  | negative f => negative (f.bind σ)
  | binary o a b => binary o (a.bind σ) (b.bind σ)
  | group f => group (f.bind σ)

/-- The signs are those of the formula, and it is read back from them. -/
@[mk_iff] structure IsSpelled (f : Formula) (x : Spelling) : Prop where
  fits : f.fits = true
  operands : ∀ o ∈ f.operands, o.isSound = true
  signs : x.map (·.2) = f.signs

instance (f : Formula) (x : Spelling) : Decidable (f.IsSpelled x) := decidable_of_iff' _ (isSpelled_iff f x)

end Formula

namespace Symbol

def bind (σ : Operand → Formula) : Symbol → List Symbol
  | operand o => (σ o).signs
  | s => [s]

end Symbol

namespace Spelling

/-- Signs with spaces before the first one only. -/
def spread (k : Nat) : List Symbol → Spelling
  | [] => []
  | s :: signs => (k, s) :: signs.map fun s => (0, s)

/-- The first sign of what an operand is replaced by, takes over the spaces. -/
def bind (σ : Operand → Formula) (x : Spelling) : Spelling :=
  x.flatMap fun (k, s) => spread k (s.bind σ)

end Spelling

/-! ## The text of a formula -/

def isFormulaChar (c : Char) : Bool :=
  Text.isWordChar c || [' ', '$', '#', '+', '-', '*', '(', ')'].contains c

theorem isWordChar_of_isHexDigit (h : isHexDigit c) : isWordChar c := by
  by_contra hc
  simp only [isWordChar_eq, Bool.or_eq_true, not_or, Bool.not_eq_true] at hc
  have hnone : digitValue? c = none := by
    simp [digitValue?, hc.1.1.1, hc.1.1.2, hc.1.2]
  simp [isHexDigit, hnone] at h

namespace Operand

theorem mem_written (ho : o.isSound) (hc : c ∈ o.written) : (isWordChar c || c == '$' || c == '#') := by
  cases o with
  | number n => simp [isWordChar_of_mem_ofNat hc]
  | reference name =>
    rcases mem_cons.mp hc with rfl | hc
    · rfl
    · obtain ⟨_, _, _, _, hname⟩ := isName_iff.mp ho
      simp [hname c hc]
  | colour code =>
    rcases mem_cons.mp hc with rfl | hc
    · rfl
    · simp only [isSound, Bool.and_eq_true, all_eq_true] at ho
      simp [isWordChar_of_isHexDigit (ho.1 c hc)]

theorem last_written (ho : o.isSound) : ∃ c, o.written.getLast? = some c ∧ isWordChar c := by
  have hword : ∀ w : Text, w ≠ [] → (∀ c ∈ w, isWordChar c) →
      ∃ c, w.getLast? = some c ∧ isWordChar c := fun w hne hw =>
    ⟨w.getLast hne, getLast?_eq_some_getLast hne, hw _ (getLast_mem hne)⟩
  have hcons : ∀ (d : Char) (w : Text), (∃ c, w.getLast? = some c ∧ isWordChar c) →
      ∃ c, (d :: w).getLast? = some c ∧ isWordChar c := by
    rintro d w ⟨c, hc, hw⟩
    exact ⟨c, by rw [getLast?_cons, hc]; rfl, hw⟩
  cases o with
  | number n => exact hword _ (ofNat_ne_nil n) fun c hc => isWordChar_of_mem_ofNat hc
  | reference name =>
    obtain ⟨c, r, rfl, _, hname⟩ := isName_iff.mp ho
    exact hcons _ _ (hword _ (cons_ne_nil _ _) hname)
  | colour code =>
    simp only [isSound, Bool.and_eq_true, all_eq_true] at ho
    refine hcons _ _ (hword _ ?_ fun c hc => isWordChar_of_isHexDigit (ho.1 c hc))
    rintro rfl
    simp at ho

end Operand

namespace Formula
variable {f : Formula} {x : Spelling} {σ : Operand → Formula}

theorem mem_operands : Symbol.operand o ∈ f.signs ↔ o ∈ f.operands := by
  induction f with
  | operand p => simp [signs, operands]
  | negative f ih => simp [signs, operands, ih]
  | binary p a b iha ihb => simp [signs, operands, iha, ihb]
  | group f ih => simp [signs, operands, ih]

theorem count_signs (f : Formula) : f.signs.count .opening = f.signs.count .closing := by
  induction f with
  | operand p => rfl
  | negative f ih => simpa [signs, count_cons] using ih
  | binary p a b iha ihb => simp [signs, count_append, iha, ihb]
  | group f ih => simp [signs, count_append, ih]

theorem isComputed_iff (f : Formula) : f.isComputed ↔ ∃ o, Symbol.operator o ∈ f.signs := by
  induction f with
  | operand p | negative f _ => simp [isComputed, signs]
  | binary p a b _ _ => exact iff_of_true rfl ⟨p, mem_append_right _ mem_cons_self⟩
  | group f ih => simp [isComputed, signs, ih]

namespace IsSpelled
variable (h : f.IsSpelled x)
include h

theorem isChain : x.IsChain fun y z => y.2.areApart z.2 := by
  have hchain := isChain_signs f
  rwa [← h.signs, isChain_map] at hchain

theorem operand_of_mem {k : Nat} (ho : (k, Symbol.operand o) ∈ x) : o ∈ f.operands := by
  rw [← mem_operands, ← h.signs]
  exact mem_map_of_mem (f := (·.2)) ho

theorem isFormulaChar_of_mem_text (hc : c ∈ x.text) : isFormulaChar c := by
  rcases mem_text hc with rfl | ⟨⟨k, s⟩, hy, hc⟩
  · rfl
  · cases s with
    | operand o =>
      have hclass := Operand.mem_written (h.operands o (h.operand_of_mem hy)) hc
      simp only [Bool.or_eq_true, beq_iff_eq] at hclass
      rcases hclass with (hword | rfl) | rfl
      · simp [isFormulaChar, hword]
      · rfl
      · rfl
    | operator o =>
      obtain rfl := mem_singleton.mp hc
      cases o <;> rfl
    | opening =>
      obtain rfl := mem_singleton.mp hc
      rfl
    | closing =>
      obtain rfl := mem_singleton.mp hc
      rfl

theorem not_mem_text (hc : isFormulaChar c = false) : c ∉ x.text :=
  not_mem_of_all (fun _ hd => h.isFormulaChar_of_mem_text hd) hc

theorem last_text : ∃ c, x.text.getLast? = some c ∧ isBlank c = false := by
  obtain ⟨s, hs, hne⟩ := getLast?_signs f
  rw [← h.signs, getLast?_map] at hs
  obtain ⟨⟨k, t⟩, hy, rfl⟩ := Option.map_eq_some_iff.mp hs
  obtain ⟨x, rfl⟩ := getLast?_eq_some_iff.mp hy
  have hlast : ∃ c, t.written.getLast? = some c ∧ isBlank c = false := by
    cases t with
    | operand o =>
      obtain ⟨c, hc, hw⟩ := Operand.last_written (h.operands o (h.operand_of_mem (k := k) (by simp)))
      exact ⟨c, hc, isBlank_eq_false_of_isWordChar hw⟩
    | operator o => exact absurd rfl (hne o)
    | opening | closing => exact ⟨_, rfl, rfl⟩
  obtain ⟨c, hc, hblank⟩ := hlast
  refine ⟨c, ?_, hblank⟩
  have hcut : Spelling.text (x ++ [(k, t)]) = (Spelling.text x ++ replicate k ' ') ++ t.written := by
    simp [Spelling.text]
  rw [hcut, getLast?_append, hc]
  rfl

theorem solid (hx : ∀ y ∈ x.head?, y.1 = 0) : Solid x.text := by
  refine ⟨?_, h.last_text⟩
  obtain ⟨⟨k, s⟩, r, rfl⟩ := exists_cons_of_ne_nil (ne_nil_of_signs h.signs)
  obtain rfl : k = 0 := hx _ rfl
  obtain ⟨c, hc, hblank, _⟩ := head?_written s
  obtain ⟨w, hw⟩ := head?_eq_some_iff.mp hc
  exact ⟨c, by rw [text_cons, hw]; rfl, hblank⟩

end IsSpelled

/-! ## Replacing operands -/

theorem fits_ofInt (v : Int) : (ofInt v).fits ∧ 11 ≤ (ofInt v).level := by
  cases v with
  | ofNat n => exact ⟨rfl, Nat.le_succ 11⟩
  | negSucc n => exact ⟨rfl, Nat.le_refl 11⟩

theorem value_ofInt (env : Text → Int) (v : Int) : (ofInt v).value env = v := by
  cases v <;> rfl

theorem isNumeric_ofInt (v : Int) : (ofInt v).isNumeric := by
  cases v <;> rfl

theorem flatMap_ofInt (v : Int) : (ofInt v).signs.flatMap Symbol.written = Text.ofInt v := by
  cases v <;> simp [ofInt, signs, Symbol.written, Operand.written, Text.ofInt, Operator.char]

theorem level_bind (hσ : ∀ o ∈ f.operands, 11 ≤ (σ o).level) {l : Nat} (hl : l ≤ 11) (h : l ≤ f.level) :
    l ≤ (f.bind σ).level := by
  cases f with
  | operand o => exact hl.trans (hσ o mem_cons_self)
  | negative f | binary o a b | group f => exact h

theorem fits_bind (hσ : ∀ o ∈ f.operands, (σ o).fits ∧ 11 ≤ (σ o).level) (h : f.fits) : (f.bind σ).fits := by
  induction f with
  | operand o => exact (hσ o mem_cons_self).1
  | negative f ih =>
    simp only [fits, Bool.and_eq_true, decide_eq_true_eq] at h
    simp only [bind, fits, Bool.and_eq_true, decide_eq_true_eq]
    have hlevel : ∀ o ∈ f.operands, 11 ≤ (σ o).level := fun o ho => (hσ o ho).2
    exact ⟨ih hσ h.1, level_bind hlevel (Nat.le_refl _) h.2⟩
  | binary o a b iha ihb =>
    simp only [fits, Bool.and_eq_true, decide_eq_true_eq] at h
    simp only [bind, fits, Bool.and_eq_true, decide_eq_true_eq]
    have ho : o.level + 1 ≤ 11 := by cases o <;> decide
    have ha : ∀ o ∈ a.operands, (σ o).fits ∧ 11 ≤ (σ o).level := fun o ho =>
      hσ o (mem_append_left _ ho)
    have hb : ∀ o ∈ b.operands, (σ o).fits ∧ 11 ≤ (σ o).level := fun o ho =>
      hσ o (mem_append_right _ ho)
    exact ⟨⟨⟨iha ha h.1.1.1, ihb hb h.1.1.2⟩, level_bind (fun o ho => (ha o ho).2) (by omega) h.1.2⟩,
      level_bind (fun o ho => (hb o ho).2) ho h.2⟩
  | group f ih => exact ih hσ h

theorem value_bind {env : Text → Int} (h : ∀ o ∈ f.operands, (σ o).value env = o.value env) :
    (f.bind σ).value env = f.value env := by
  induction f with
  | operand o => exact h o mem_cons_self
  | negative f ih => exact congrArg (- ·) (ih h)
  | binary o a b iha ihb =>
    simp only [bind, value]
    rw [iha fun p hp => h p (mem_append_left _ hp), ihb fun p hp => h p (mem_append_right _ hp)]
  | group f ih => exact ih h

theorem isSmall_ofInt (env : Text → Int) (v : Int) : (ofInt v).isSmall env = fitsWord v := by
  cases v with
  | ofNat n => rfl
  | negSucc n =>
    have hvalue : -((n + 1 : Nat) : Int) = .negSucc n := rfl
    exact (Bool.true_and _).trans (congrArg fitsWord hvalue)

theorem isSmall_bind {env : Text → Int} (h : ∀ o ∈ f.operands, (σ o).value env = o.value env)
    (hσ : ∀ o ∈ f.operands, (σ o).isSmall env = fitsWord ((σ o).value env) ∧ (o.isNumber → (σ o).isNumeral))
    (hsmall : f.isSmall env) : (f.bind σ).isSmall env := by
  induction f with
  | operand o =>
    rw [bind, (hσ o mem_cons_self).1, h o mem_cons_self]
    exact hsmall
  | negative f ih =>
    rw [isSmall, Bool.and_eq_true, Bool.or_eq_true] at hsmall
    rw [bind, isSmall, value_bind (f := f) h, Bool.and_eq_true, Bool.or_eq_true]
    refine ⟨hsmall.1.imp (fun hnumeral => ?_) (ih h hσ), hsmall.2⟩
    cases f with
    | operand o => exact (hσ o mem_cons_self).2 hnumeral
    | negative f | binary o a b | group f => cases hnumeral
  | binary o a b iha ihb =>
    have ha : ∀ p ∈ a.operands, p ∈ (binary o a b).operands := fun _ => mem_append_left _
    have hb : ∀ p ∈ b.operands, p ∈ (binary o a b).operands := fun _ => mem_append_right _
    simp only [isSmall, Bool.and_eq_true] at hsmall
    simp only [bind, isSmall, Bool.and_eq_true]
    rw [value_bind fun p hp => h p (ha p hp), value_bind fun p hp => h p (hb p hp)]
    exact ⟨⟨iha (fun p hp => h p (ha p hp)) (fun p hp => hσ p (ha p hp)) hsmall.1.1,
      ihb (fun p hp => h p (hb p hp)) (fun p hp => hσ p (hb p hp)) hsmall.1.2⟩, hsmall.2⟩
  | group f ih => exact ih h hσ hsmall

theorem operands_bind (f : Formula) (σ : Operand → Formula) :
    (f.bind σ).operands = f.operands.flatMap fun o => (σ o).operands := by
  induction f with
  | operand o => simp [bind, operands]
  | negative f ih => exact ih
  | binary o a b iha ihb => simp [bind, operands, iha, ihb]
  | group f ih => exact ih

theorem signs_bind (f : Formula) (σ : Operand → Formula) : (f.bind σ).signs = f.signs.flatMap (Symbol.bind σ) := by
  induction f with
  | operand o => simp [bind, signs, Symbol.bind]
  | negative f ih => simp [bind, signs, Symbol.bind, ih]
  | binary o a b iha ihb => simp [bind, signs, Symbol.bind, iha, ihb]
  | group f ih => simp [bind, signs, Symbol.bind, ih]

theorem bind_ne_nil (σ : Operand → Formula) (s : Symbol) : s.bind σ ≠ [] := by
  cases s with
  | operand o => exact signs_ne_nil _
  | operator o | opening | closing => exact cons_ne_nil _ _

theorem map_spread (k : Nat) (signs : List Symbol) : (Spelling.spread k signs).map (·.2) = signs := by
  cases signs with
  | nil => rfl
  | cons s signs => simp [Spelling.spread, Function.comp_def]

theorem text_spread (k : Nat) {signs : List Symbol} (h : signs ≠ []) :
    (Spelling.spread k signs).text = replicate k ' ' ++ signs.flatMap Symbol.written := by
  obtain ⟨s, signs, rfl⟩ := exists_cons_of_ne_nil h
  simp [Spelling.spread, Spelling.text, flatMap_map]

theorem map_bind (σ : Operand → Formula) (x : Spelling) :
    (x.bind σ).map (·.2) = (x.map (·.2)).flatMap (Symbol.bind σ) := by
  rw [Spelling.bind, map_flatMap, flatMap_map]
  simp [map_spread]

theorem text_bind (σ : Operand → Formula) (x : Spelling) :
    (x.bind σ).text = x.flatMap fun y => replicate y.1 ' ' ++ (y.2.bind σ).flatMap Symbol.written := by
  rw [Spelling.text, Spelling.bind, flatMap_assoc]
  exact flatMap_congr fun y _ => text_spread y.1 (bind_ne_nil σ y.2)

theorem IsSpelled.bind (h : f.IsSpelled x) (hσ : ∀ o ∈ f.operands, (σ o).fits ∧ 11 ≤ (σ o).level)
    (hsound : ∀ o ∈ f.operands, ∀ p ∈ (σ o).operands, p.isSound) : (f.bind σ).IsSpelled (x.bind σ) := by
  refine ⟨fits_bind hσ h.fits, fun p hp => ?_, ?_⟩
  · rw [operands_bind] at hp
    obtain ⟨o, ho, hp⟩ := mem_flatMap.mp hp
    exact hsound o ho p hp
  · rw [map_bind, h.signs, signs_bind]

theorem isComputed_bind (h : f.isComputed) (σ : Operand → Formula) : (f.bind σ).isComputed := by
  induction f with
  | operand o => cases h
  | negative f _ | binary o a b _ _ => rfl
  | group f ih => exact ih h

end Formula

/-! ## Replacing variables -/

def Operand.filled (env : Text → Formula) : Operand → Formula
  | .reference name => env name
  | o => .operand o

/-- A formula without variables that may stand where an operand stands. -/
structure Formula.IsValue (f : Formula) : Prop where
  fits : f.fits = true
  level : 11 ≤ f.level
  operands : ∀ o ∈ f.operands, o.isSound = true ∧ ∀ name, o ≠ .reference name

theorem Formula.isValue_ofInt (v : Int) : (ofInt v).IsValue := by
  refine ⟨(fits_ofInt v).1, (fits_ofInt v).2, fun o ho => ?_⟩
  have hnumber := all_eq_true.mp (isNumeric_ofInt v) o ho
  cases o with
  | number n => exact ⟨rfl, fun name heq => by cases heq⟩
  | reference n | colour n => cases hnumber

def Formula.written (f : Formula) : Text := f.signs.flatMap Symbol.written

def Symbol.slots : Symbol → Template
  | operand (.reference name) => [.ref name]
  | s => s.written.map .char

/-- The text of a formula as a template with its variables. -/
def Spelling.template (x : Spelling) : Template :=
  x.flatMap fun (k, s) => (List.replicate k ' ').map .char ++ s.slots

namespace Spelling

theorem template_cons (k : Nat) (s : Symbol) (x : Spelling) :
    template ((k, s) :: x) = (replicate k ' ').map .char ++ (s.slots ++ template x) := by
  simp [template]

theorem source_slots (s : Symbol) : s.slots.source = s.written := by
  unfold Symbol.slots
  split
  · simp [source, Slot.source, Symbol.written, Operand.written]
  · exact source_chars _

theorem source_template (x : Spelling) : x.template.source = x.text := by
  induction x with
  | nil => rfl
  | cons y x ih =>
    rw [template_cons, text_cons, source_append, source_append, source_chars, source_slots, ih]

theorem fill_slots (env : Text → Formula) (s : Symbol) :
    s.slots.fill (fun n => (env n).written) = (s.bind (Operand.filled env)).flatMap Symbol.written := by
  unfold Symbol.slots
  split
  · simp [fill, Slot.fill, Symbol.bind, Operand.filled, Formula.written]
  · rename_i hs
    rw [fill_chars]
    cases s with
    | operand o =>
      cases o with
      | reference name => exact absurd rfl (hs name)
      | number n | colour code => simp [Symbol.bind, Operand.filled, Formula.signs]
    | operator o | opening | closing => simp [Symbol.bind]

theorem fill_template (env : Text → Formula) (x : Spelling) :
    x.template.fill (fun n => (env n).written) = (x.bind (Operand.filled env)).text := by
  rw [Formula.text_bind]
  induction x with
  | nil => rfl
  | cons y x ih =>
    rw [template_cons, fill_append, fill_append, fill_chars, fill_slots, ih]
    simp

theorem mem_template {x : Spelling} {t : Slot} (h : t ∈ x.template) :
    t = .char ' ' ∨ ∃ y ∈ x, t ∈ y.2.slots := by
  obtain ⟨⟨k, s⟩, hy, ht⟩ := mem_flatMap.mp h
  rcases mem_append.mp ht with ht | ht
  · obtain ⟨c, hc, rfl⟩ := mem_map.mp ht
    exact .inl (congrArg Slot.char (mem_replicate.mp hc).2)
  · exact .inr ⟨_, hy, ht⟩

end Spelling

namespace Formula.IsSpelled
variable {f : Formula} {x : Spelling} {vars : Variables} {env : Text → Formula}

theorem mem_names (h : f.IsSpelled x) {name : Text} (hn : name ∈ x.template.names) :
    Operand.reference name ∈ f.operands := by
  rcases Spelling.mem_template (Template.mem_names.mp hn) with heq | ⟨⟨k, s⟩, hy, hs⟩
  · cases heq
  · unfold Symbol.slots at hs
    split at hs
    · rename_i heq
      obtain rfl : s = _ := heq
      obtain rfl := Slot.ref.inj (mem_singleton.mp hs)
      exact h.operand_of_mem hy
    · obtain ⟨c, _, heq⟩ := mem_map.mp hs
      cases heq

theorem isSeparated_template {x : Spelling} (h : x.IsChain fun y z => y.2.areApart z.2) :
    x.template.isSeparated := by
  induction x with
  | nil => rfl
  | cons y x ih =>
    obtain ⟨k, s⟩ := y
    obtain ⟨hy, hx⟩ := isChain_cons.mp h
    rw [Spelling.template_cons]
    refine isSeparated_chars ?_
    unfold Symbol.slots
    split
    · -- What follows a variable is a space or the sign of an operation.
      have hstops : (Spelling.template x).stopsWord := by
        match x, hy with
        | [], _ | (k + 1, t) :: x, _ => rfl
        | (0, t) :: x, hy =>
          have happart := hy _ rfl
          cases t with
          | operand o => cases happart
          | operator o => cases o <;> rfl
          | opening | closing => rfl
      change (stopsWord (Spelling.template x) && isSeparated (Spelling.template x))
      rw [hstops, ih hx]
      rfl
    · exact isSeparated_chars (ih hx)

theorem clean_template (h : f.IsSpelled x) : x.template.Clean := by
  refine ⟨fun c hc => ?_, fun n hn => h.operands _ (h.mem_names hn), isSeparated_template h.isChain⟩
  rcases Spelling.mem_template hc with heq | ⟨⟨k, s⟩, hy, hs⟩
  · cases heq
    decide
  · unfold Symbol.slots at hs
    split at hs
    · cases mem_singleton.mp hs
    · rename_i hne
      obtain ⟨d, hd, heq⟩ := mem_map.mp hs
      cases heq
      have hchar : isFormulaChar c := by
        refine h.isFormulaChar_of_mem_text (mem_flatMap.mpr ⟨_, hy, mem_append_right _ hd⟩)
      refine ⟨?_, ne_of_class hchar (by decide)⟩
      rintro rfl
      cases s with
      | operand o =>
        have hsound := h.operands o (h.operand_of_mem hy)
        cases o with
        | reference name => exact hne name rfl
        | number n => exact absurd (isDigit_of_mem_ofNat hd) (by decide)
        | colour code =>
          rcases mem_cons.mp hd with heq | hd
          · exact absurd heq (by decide)
          · simp only [Operand.isSound, Bool.and_eq_true, all_eq_true] at hsound
            exact absurd (hsound.1 _ hd) (by decide)
      | operator o => cases o <;> exact absurd (mem_singleton.mp hd) (by decide)
      | opening | closing => exact absurd (mem_singleton.mp hd) (by decide)

theorem filled (h : f.IsSpelled x) (henv : ∀ name, .reference name ∈ f.operands → (env name).IsValue) :
    (f.bind (Operand.filled env)).IsSpelled (x.bind (Operand.filled env)) := by
  refine h.bind (fun o ho => ?_) fun o ho p hp => ?_
  · cases o with
    | reference name => exact ⟨(henv name ho).fits, (henv name ho).level⟩
    | number n | colour code => exact ⟨rfl, Nat.le_succ 11⟩
  · have hsound := h.operands o ho
    cases o with
    | reference name => exact ((henv name ho).operands p hp).1
    | number n | colour code => exact mem_singleton.mp hp ▸ hsound

theorem resolve (h : f.IsSpelled x) (henv : ∀ name, .reference name ∈ f.operands → (env name).IsValue)
    (hvars : ∀ name, .reference name ∈ f.operands → vars.get? ('$' :: name) = some (env name).written) :
    Reference.resolve vars x.text [] = .ok (x.bind (Operand.filled env)).text := by
  have hchars : ∀ name, .reference name ∈ f.operands → ∀ c ∈ (env name).written, c ≠ '$' ∧ c ≠ '\\' := by
    intro name hname c hc
    obtain ⟨s, hs, hc⟩ := mem_flatMap.mp hc
    cases s with
    | operand o =>
      obtain ⟨hsound, hne⟩ := (henv name hname).operands o (mem_operands.mp hs)
      cases o with
      | reference n => exact absurd rfl (hne n)
      | number n =>
        exact ⟨ne_of_class (isDigit_of_mem_ofNat hc) rfl, ne_of_class (isDigit_of_mem_ofNat hc) rfl⟩
      | colour code =>
        rcases mem_cons.mp hc with rfl | hc
        · decide
        · simp only [Operand.isSound, Bool.and_eq_true, all_eq_true] at hsound
          exact ⟨ne_of_class (hsound.1 c hc) (by decide), ne_of_class (hsound.1 c hc) (by decide)⟩
    | operator o =>
      obtain rfl := mem_singleton.mp hc
      cases o <;> decide
    | opening =>
      obtain rfl := mem_singleton.mp hc
      decide
    | closing =>
      obtain rfl := mem_singleton.mp hc
      decide
  have hresolve := h.clean_template.resolve_source (fun n hn => hvars n (h.mem_names hn)) (fun n hn => hchars n (h.mem_names hn)) (by
      rw [Spelling.fill_template]
      exact (h.filled henv).not_mem_text (by decide))
  rwa [Spelling.source_template, Spelling.fill_template] at hresolve

end Formula.IsSpelled

/-! ## Computing -/

namespace Arithmetic
variable {q : Char} {s a b : Text}

theorem hasOperator_eq_any (h : q ∉ s) : hasOperator q s = s.any isOperator := by
  induction s with
  | nil => rfl
  | cons c s ih =>
    have hs : q ∉ s := fun hm => h (.tail _ hm)
    have heven : evenAfter q s := by simp [evenAfter, count_eq_zero.mpr hs]
    rw [hasOperator, heven, ih hs, Bool.and_true, any_cons]

theorem quotedWords_append (h : '"' ∉ a) (b : Text) : quotedWords 0 (a ++ b) = quotedWords 0 b := by
  induction a with
  | nil => rfl
  | cons c a ih =>
    have hc : (c == '"') = false := beq_eq_false_iff_ne.mpr fun heq => h (heq ▸ mem_cons_self)
    rw [cons_append, quotedWords, ← ih fun hm => h (.tail _ hm)]
    simp only [hc, Bool.false_and, Bool.false_eq_true, if_false]
    split <;> rfl

theorem hexCodes_append (h : '#' ∉ a) (b : Text) : hexCodes (a ++ b) = hexCodes b := by
  induction a with
  | nil => rfl
  | cons c a ih =>
    have hc : (c == '#') = false := beq_eq_false_iff_ne.mpr fun heq => h (heq ▸ mem_cons_self)
    rw [cons_append, hexCodes]
    simp only [hc, Bool.false_and, Bool.false_eq_true, if_false]
    exact ih fun hm => h (.tail _ hm)

theorem withColourNumbers_eq_self (hquote : '"' ∉ s) (hmark : '#' ∉ s) :
    withColourNumbers s = .ok (false, s) := by
  have hwords := quotedWords_append hquote []
  have hcodes := hexCodes_append hmark []
  rw [append_nil] at hwords hcodes
  rw [withColourNumbers, hwords, hcodes]
  rfl

theorem nameAndValue?_eq_none (h : '=' ∉ s) : nameAndValue? s = none := by
  unfold nameAndValue?
  split
  · rfl
  · rename_i c t
    split
    · rfl
    · have hsign : has t "=" = false :=
        has_eq_false_of_not_mem (c := '=') (by decide) fun hm => h (.tail _ hm)
      rw [cut?_eq_none hsign]

theorem computePart_of_compute {part part' t : Text} {coloured : Bool} (hdouble : hasOperator '"' part)
    (hsingle : hasOperator '\'' part) (hcolours : withColourNumbers part = .ok (coloured, part'))
    (hcompute : nameAndValue? part' = none ∧ compute part' = .ok t ∨
      ∃ name value v, nameAndValue? part' = some (name, value) ∧ compute value = .ok v ∧ t = name ++ '=' :: v) :
    computePart part = if coloured then
      ((t.readInt? 10).map fun n => '#' :: Colour.ofNumber (Colour.clamp n)).elim (.error .badValue) .ok else .ok t := by
  rw [computePart, hdouble, hsingle, hcolours]
  cases hread : t.readInt? 10 <;> cases coloured <;>
    rcases hcompute with ⟨hname, hcompute⟩ | ⟨name, value, v, hname, hcompute, rfl⟩ <;>
    simp only [Bool.and_self, if_true, bind, Except.bind, pure, Except.pure, hname, hcompute, hread] <;> rfl

end Arithmetic

theorem Text.isNameStart_of_isDigit (h : c.isDigit) : isNameStart c = false := by
  have hne : c ≠ '_' := ne_of_class h rfl
  have hstart : isNameStart c = (decide (65 ≤ c.val ∧ c.val ≤ 90) ||
      (decide (97 ≤ c.val) && decide (c.val ≤ 122)) || c == '_') := rfl
  have hdigit : c.isDigit = (decide (48 ≤ c.val) && decide (c.val ≤ 57)) := rfl
  rw [hdigit, Bool.and_eq_true, decide_eq_true_eq, decide_eq_true_eq] at h
  rw [hstart]
  simp only [Bool.or_eq_false_iff, Bool.and_eq_false_iff, decide_eq_false_iff_not, beq_eq_false_iff_ne]
  grind

theorem Method.isCall_eq_false {s : Text} (h : ∀ c ∈ s.head?, isNameStart c = false) : isCall s = false := by
  have hname : isName (s.takeWhile isWordChar) = false := by
    cases s with
    | nil => rfl
    | cons c s =>
      rw [takeWhile_cons]
      split
      · rw [isName, h c rfl]
        rfl
      · rfl
  rw [isCall, hname, Bool.false_and]

namespace Formula
variable {f : Formula} {x : Spelling} {vars : Variables}

theorem IsSpelled.any_text (h : f.IsSpelled x) : x.text.any isOperator = f.isComputed := by
  rw [Bool.eq_iff_iff, isComputed_iff, any_eq_true, ← h.signs]
  constructor
  · rintro ⟨c, hc, hop⟩
    rcases mem_text hc with rfl | ⟨⟨k, s⟩, hy, hc⟩
    · cases hop
    · cases s with
      | operand o =>
        have hclass := Operand.mem_written (h.operands o (h.operand_of_mem hy)) hc
        rw [Item.isOperator_eq_false (p := fun c => isWordChar c || c == '$' || c == '#') hclass
          (by decide)] at hop
        cases hop
      | operator o => exact ⟨o, mem_map_of_mem (f := (·.2)) hy⟩
      | opening =>
        obtain rfl := mem_singleton.mp hc
        cases hop
      | closing =>
        obtain rfl := mem_singleton.mp hc
        cases hop
  · rintro ⟨o, ho⟩
    obtain ⟨⟨k, s⟩, hy, rfl⟩ := mem_map.mp ho
    refine ⟨o.char, mem_flatMap.mpr ⟨_, hy, mem_append_right _ ?_⟩, ?_⟩
    · exact mem_singleton_self _
    · cases o <;> rfl

theorem IsSpelled.computePart (h : f.IsSpelled x) (hnumeric : f.isNumeric) {env : Text → Int} (hsmall : f.isSmall env) :
    Arithmetic.computePart x.text = .ok (if f.isComputed then Text.ofInt (f.value env) else x.text) := by
  have hoperator : ∀ q : Char, isFormulaChar q = false → hasOperator q x.text = f.isComputed :=
    fun q hq => by rw [hasOperator_eq_any (h.not_mem_text hq), h.any_text]
  have hmark : '#' ∉ x.text := by
    intro hm
    rcases mem_text hm with heq | ⟨y, hy, hm⟩
    · exact absurd heq (by decide)
    · have hnumber := isNumeric_signs hnumeric y.2 (h.signs ▸ mem_map_of_mem hy)
      rcases Expression.mem_written_of_isNumeric hnumber hm with hd | hd
      · exact absurd hd (by decide)
      · exact absurd hd (by decide)
  cases hcomputed : f.isComputed with
  | false =>
    rw [Arithmetic.computePart, hoperator '"' (by decide), hcomputed]
    rfl
  | true =>
    have hcompute : Arithmetic.compute x.text = .ok (Text.ofInt (f.value env)) := by
      have hresult := result_text h.fits hnumeric h.signs hsmall 0
      rw [replicate_zero, append_nil] at hresult
      rw [Arithmetic.compute, hresult]
    have hname : Arithmetic.nameAndValue? x.text = none :=
      Arithmetic.nameAndValue?_eq_none (h.not_mem_text (by decide))
    exact Arithmetic.computePart_of_compute (by rw [hoperator '"' (by decide), hcomputed])
      (by rw [hoperator '\'' (by decide), hcomputed])
      (withColourNumbers_eq_self (h.not_mem_text (by decide)) hmark) (.inl ⟨hname, hcompute⟩)

theorem isNumeric_filled (h : ∀ o ∈ f.operands, o.isColour = false) (env : Text → Int) :
    (f.bind (Operand.filled fun n => ofInt (env n))).isNumeric := by
  rw [isNumeric, operands_bind, all_eq_true]
  intro p hp
  obtain ⟨o, ho, hp⟩ := mem_flatMap.mp hp
  cases o with
  | number n => exact mem_singleton.mp hp ▸ rfl
  | reference name => exact all_eq_true.mp (isNumeric_ofInt (env name)) p hp
  | colour code => exact absurd (h _ ho) (by simp [Operand.isColour])

theorem value_filled {values : Text → Formula} {env : Text → Int}
    (hvalues : ∀ n, (values n).value env = env n) (f : Formula) :
    (f.bind (Operand.filled values)).value env = f.value env := by
  refine value_bind fun o _ => ?_
  cases o with
  | number n | colour code => rfl
  | reference name => exact hvalues name

theorem isSmall_filled {values : Text → Formula} {env : Text → Int}
    (hvalues : ∀ n, (values n).value env = env n)
    (hsmalls : ∀ n, (values n).isSmall env = fitsWord (env n)) (hsmall : f.isSmall env) :
    (f.bind (Operand.filled values)).isSmall env := by
  refine isSmall_bind (fun o _ => value_filled hvalues (.operand o)) (fun o _ => ?_) hsmall
  cases o with
  | number n | colour code => exact ⟨rfl, id⟩
  | reference name => exact ⟨(hsmalls name).trans (congrArg fitsWord (hvalues name).symm), nofun⟩

theorem isCall_text (x : Spelling) : Method.isCall x.text = false := by
  refine Method.isCall_eq_false fun c hc => ?_
  rcases Expression.head?_text (j := 0) (by rwa [replicate_zero, append_nil]) with rfl | ⟨y, _, hc⟩
  · rfl
  · obtain ⟨d, hd, _, hclass⟩ := head?_written y.2
    obtain rfl : d = c := Option.some.inj (hd.symm.trans hc)
    rcases hclass with hdigit | hsign
    · exact isNameStart_of_isDigit hdigit
    · have hall : ∀ e ∈ ['$', '#', '+', '-', '*', '(', ')'], isNameStart e = false := by decide
      exact hall d hsign

theorem head?_bind {σ : Operand → Formula} (hx : ∀ y ∈ x.head?, y.1 = 0) : ∀ y ∈ (x.bind σ).head?, y.1 = 0 := by
  cases x with
  | nil => exact hx
  | cons z x =>
    obtain ⟨k, s⟩ := z
    obtain ⟨t, ts, ht⟩ := exists_cons_of_ne_nil (bind_ne_nil σ s)
    intro y hy
    have hhead : (Spelling.bind σ ((k, s) :: x)).head? = some (k, t) := by
      simp [Spelling.bind, Spelling.spread, ht]
    obtain rfl : (k, t) = y := Option.some.inj (hhead.symm.trans hy)
    exact hx (k, s) rfl

/-- A formula without colours is evaluated to its value, unless it is an operand in parentheses. -/
theorem IsSpelled.evaluate (h : f.IsSpelled x) (hcolour : ∀ o ∈ f.operands, o.isColour = false)
    (hform : f.isComputed ∨ f.isOperand) (hx : ∀ y ∈ x.head?, y.1 = 0) {env : Text → Int}
    (hvars : ∀ name, .reference name ∈ f.operands → vars.get? ('$' :: name) = some (Text.ofInt (env name)))
    (hsmall : f.isSmall env) : Method.evaluate vars x.text = .ok (Text.ofInt (f.value env)) := by
  have henv : ∀ name, .reference name ∈ f.operands → (ofInt (env name)).IsValue := fun name _ => isValue_ofInt _
  have hfilled := h.filled henv
  have hsolid := hfilled.solid (head?_bind hx)
  have hpart := hfilled.computePart (isNumeric_filled hcolour env)
    (isSmall_filled (fun n => value_ofInt env (env n)) (fun n => isSmall_ofInt env (env n)) hsmall)
  have hresolve := h.resolve henv fun name hname => (hvars name hname).trans (congrArg some (flatMap_ofInt _).symm)
  rw [Method.evaluate, hresolve]
  change (if Method.isCall (trim (x.bind (Operand.filled fun n => ofInt (env n))).text)
    then _ else _) = _
  rw [hsolid.trim_eq, isCall_text]
  change Arithmetic.computePart _ = _
  rw [hpart, value_filled fun n => value_ofInt env (env n)]
  split
  · rfl
  · rename_i hnot
    -- What stays uncomputed is a lone number.
    have hoperand : f.isOperand := hform.resolve_left fun hc => hnot (isComputed_bind hc _)
    cases f with
    | negative f | binary o a b | group f => cases hoperand
    | operand o =>
      obtain ⟨⟨k, s⟩, rfl, hs⟩ := map_eq_singleton_iff.mp h.signs
      obtain rfl : k = 0 := hx _ rfl
      obtain rfl : s = .operand o := hs
      rw [text_bind]
      cases o with
      | number n =>
        simp [Symbol.bind, Operand.filled, Formula.signs, Symbol.written, Operand.written, value, Operand.value,
          Text.ofInt]
      | reference name => simp [Symbol.bind, Operand.filled, flatMap_ofInt, value, Operand.value]
      | colour code => cases hcolour _ mem_cons_self

end Formula
end OutlineMarkup

