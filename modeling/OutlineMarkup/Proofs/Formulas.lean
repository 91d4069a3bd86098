import OutlineMarkup.Expression
import OutlineMarkup.Colour
import OutlineMarkup.Proofs.Reading

/-!
# Formulas

Whole numbers with variables, colours, `+`, `-`, `*` and parentheses, as they are written, with any
spaces between the signs. Main statement: where all operands are numbers, the text of a formula is
computed to its value.
-/

namespace OutlineMarkup
open List Text Expression

inductive Operator where
  | plus
  | minus
  | times
  deriving Repr, DecidableEq

namespace Operator

def char : Operator → Char
  | plus => '+'
  | minus => '-'
  | times => '*'

def level : Operator → Nat
  | plus => 9
  | minus => 9
  | times => 10

def apply : Operator → Int → Int → Int
  | plus => (· + ·)
  | minus => (· - ·)
  | times => (· * ·)

def binary : Operator → Expression.BinaryOp
  | plus => .add
  | minus => .sub
  | times => .mul

end Operator

inductive Operand where
  | number (n : Nat)
  | reference (name : Text)
  | colour (code : Text)
  deriving Repr, DecidableEq

namespace Operand

def written : Operand → Text
  | number n => Text.ofNat n
  | reference name => '$' :: name
  | colour code => '#' :: code

def value (env : Text → Int) : Operand → Int
  | number n => n
  | reference name => env name
  | colour code => (Colour.toNumber code).toOption.getD 0

def isNumber : Operand → Bool
  | number _ => true
  | _ => false

end Operand

inductive Symbol where
  | operand (o : Operand)
  | operator (o : Operator)
  | opening
  | closing
  deriving Repr, DecidableEq

namespace Symbol

def written : Symbol → Text
  | operand o => o.written
  | operator o => [o.char]
  | opening => ['(']
  | closing => [')']

def isNumeric : Symbol → Bool
  | operand o => o.isNumber
  | _ => true

def isLiteral : Symbol → Bool
  | operand (.reference _) => false
  | _ => true

def token : Symbol → Expression.Token
  | operand (.number n) => .int n
  | operand _ => .name []
  | operator o => .sign [o.char]
  | opening => .sign ['(']
  | closing => .sign [')']

theorem isLiteral_of_isNumeric {s : Symbol} (h : s.isNumeric) : s.isLiteral := by
  cases s with
  | operand o =>
    cases o with
    | number n => rfl
    | reference name => cases h
    | colour code => rfl
  | operator o | opening | closing => rfl

/-- Two signs that are not taken for another one when nothing stands between them. -/
def areApart : Symbol → Symbol → Bool
  | operand _, operand _ => false
  | operator .times, operator .times => false
  | _, _ => true

end Symbol

open Symbol (written token)

/-- Signs with the numbers of spaces before them. -/
abbrev Spelling := List (Nat × Symbol)

def Spelling.text (x : Spelling) : Text := x.flatMap fun (k, s) => List.replicate k ' ' ++ s.written

open Spelling (text)

/-- A formula by its structure, the parentheses included. -/
inductive Formula where
  | operand (o : Operand)
  | negative (f : Formula)
  | binary (o : Operator) (a b : Formula)
  | group (f : Formula)
  deriving Repr, DecidableEq

namespace Formula

def signs : Formula → List Symbol
  | operand o => [.operand o]
  | negative f => .operator .minus :: f.signs
  | binary o a b => a.signs ++ .operator o :: b.signs
  | group f => .opening :: (f.signs ++ [.closing])

def level : Formula → Nat
  | operand _ => 12
  | negative _ => 11
  | binary o _ _ => o.level
  | group _ => 12

theorem one_le_level (f : Formula) : 1 ≤ f.level := by
  cases f with
  | operand o => exact Nat.le_add_left 1 11
  | negative f => exact Nat.le_add_left 1 10
  | binary o a b => cases o <;> exact Nat.le_add_left 1 _
  | group f => exact Nat.le_add_left 1 11

/-- Operands that bind less tight are in parentheses. -/
def fits : Formula → Bool
  | operand _ => true
  | negative f => f.fits && 11 ≤ f.level
  | binary o a b => a.fits && b.fits && o.level ≤ a.level && o.level < b.level
  | group f => f.fits

def value (env : Text → Int) : Formula → Int
  | operand o => o.value env
  | negative f => -f.value env
  | binary o a b => o.apply (a.value env) (b.value env)
  | group f => f.value env

def operands : Formula → List Operand
  | operand o => [o]
  | negative f => f.operands
  | binary _ a b => a.operands ++ b.operands
  | group f => f.operands

def isNumeric (f : Formula) : Bool := f.operands.all Operand.isNumber

def isNumeral : Formula → Bool
  | operand o => o.isNumber
  | _ => false

/-- All values that come up fit the word. A minus sign belongs to the number behind it. -/
def isSmall (env : Text → Int) : Formula → Bool
  | operand o => fitsWord (o.value env)
  | negative f => (f.isNumeral || f.isSmall env) && fitsWord (-f.value env)
  | binary o a b => a.isSmall env && b.isSmall env && fitsWord (o.apply (a.value env) (b.value env))
  | group f => f.isSmall env

def tree : Formula → Expression.Expr
  | operand (.number n) => .value (.whole n)
  | operand _ => .name []
  | negative (operand (.number n)) => .value (.whole (-n))
  | negative f => .unary .minus f.tree
  | binary o a b => .binary o.binary a.tree b.tree
  | group f => f.tree

end Formula

/-! ## Numerals -/

namespace Text

theorem isDigit_of_mem_ofNat {n : Nat} {c : Char} (h : c ∈ ofNat n) : c.isDigit :=
  Nat.isDigit_of_mem_toDigits (by decide) (by decide) h

theorem ofNat_ne_nil (n : Nat) : ofNat n ≠ [] := Nat.toDigits_ne_nil

theorem head?_ofNat {n : Nat} (hn : n ≠ 0) : (ofNat n).head? ≠ some '0' := by
  induction n using Nat.strongRecOn with
  | _ n ih =>
    by_cases hlt : n < 10
    · rw [ofNat, Nat.toDigits_of_lt_base hlt]
      have hall : ∀ m, m < 10 → m ≠ 0 → m.digitChar ≠ '0' := by decide
      simpa using hall n hlt hn
    · rw [ofNat, Nat.toDigits_of_base_le (by decide) (by omega), head?_append_of_ne_nil _ Nat.toDigits_ne_nil]
      exact ih _ (by omega) (by omega)

theorem digitsFrom?_eq {s : Text} (h : ∀ c ∈ s, c.isDigit) (acc : Nat) :
    digitsFrom? 10 acc s = some (Nat.ofDigitChars 10 s acc) := by
  induction s generalizing acc with
  | nil => rfl
  | cons c s ih =>
    have hc := h c mem_cons_self
    have hlt : c.toNat - '0'.toNat < 10 := by
      rw [Char.isDigit, Bool.and_eq_true, decide_eq_true_eq, decide_eq_true_eq] at hc
      have h₁ : c.toNat ≤ '9'.toNat := hc.2
      have h₂ : '9'.toNat = 57 ∧ '0'.toNat = 48 := by decide
      omega
    rw [digitsFrom?, digitValue?, if_pos hc]
    simp only [if_pos hlt]
    rw [ih (forall_mem_cons.mp h).2, Nat.ofDigitChars_cons, Nat.mul_comm]

theorem isWordChar_of_mem_ofNat {n : Nat} {c : Char} (h : c ∈ ofNat n) : isWordChar c := by
  simp [isWordChar, Char.isAlphanum, isDigit_of_mem_ofNat h]

theorem mem_ofInt {v : Int} {c : Char} (hc : c ∈ ofInt v) : (c.isDigit || c == '-') := by
  cases v with
  | ofNat n => simp [isDigit_of_mem_ofNat hc]
  | negSucc n =>
    rcases mem_cons.mp hc with rfl | hc
    · rfl
    · simp [isDigit_of_mem_ofNat hc]

theorem not_mem_ofInt {v : Int} {c : Char} (hc : (c.isDigit || c == '-') = false) : c ∉ ofInt v :=
  not_mem_of_all (p := fun c => c.isDigit || c == '-') (fun _ => mem_ofInt) hc

theorem ofInt_ne_nil (v : Int) : ofInt v ≠ [] := by
  cases v with
  | ofNat n => exact ofNat_ne_nil n
  | negSucc n => exact cons_ne_nil _ _

theorem isWordChar_eq (c : Char) : isWordChar c = (c.isUpper || c.isLower || c.isDigit || c == '_') := rfl

theorem readNat?_ofNat (n : Nat) : readNat? 10 (ofNat n) = some n := by
  rw [readNat?, if_neg (by simp [ofNat_ne_nil]), digitsFrom?_eq fun c hc => isDigit_of_mem_ofNat hc]
  exact congrArg some Nat.ofDigitChars_ten_toDigits

theorem readInt?_ofInt (v : Int) : (ofInt v).readInt? 10 = some v := by
  have hmark : ∀ n : Nat, dropBaseMark 10 (ofNat n) = ofNat n := by
    intro n
    unfold dropBaseMark
    split
    · rename_i heq
      rw [heq]
      rfl
    · rfl
  have hsolid : Solid (ofInt v) := solid_of_forall (ofInt_ne_nil v) fun c hc =>
    isBlank_eq_false_of_class (p := fun c => c.isDigit || c == '-') (mem_ofInt hc) (by decide)
  rw [readInt?, hsolid.trim_eq]
  cases v with
  | ofNat n =>
    have hsign : takeSign (ofInt (.ofNat n)) = (false, ofNat n) := by
      change takeSign (ofNat n) = _
      unfold takeSign
      split
      · rename_i heq
        cases isDigit_of_mem_ofNat (n := n) (heq ▸ mem_cons_self)
      · rename_i heq
        cases isDigit_of_mem_ofNat (n := n) (heq ▸ mem_cons_self)
      · rfl
    simp only [hsign, hmark, readNat?_ofNat]
    rfl
  | negSucc n =>
    have hsign : takeSign (ofInt (.negSucc n)) = (true, ofNat (n + 1)) := rfl
    simp only [hsign, hmark, readNat?_ofNat]
    rfl

end Text

namespace Expression

variable {c : Char} {s : Symbol} {rest : Text} {x : Spelling}

theorem toLower_eq_self (h : isWordChar c = false) : c.toLower = c := by
  have hupper : c.isUpper = false := by
    rw [isWordChar_eq] at h
    simp only [Bool.or_eq_false_iff] at h
    exact h.1.1.1
  exact dif_neg (of_decide_eq_false hupper)

theorem number_ofNat (n : Nat) (hrest : ∀ c ∈ rest.head?, isWordChar c = false ∧ c ≠ '.') :
    number (ofNat n ++ rest) = .ok (.int n, rest) := by
  have hdigits : ∀ c ∈ ofNat n, c.isDigit := fun c hc => isDigit_of_mem_ofNat hc
  have hstop : rest.takeWhile Char.isDigit = [] ∧ rest.dropWhile Char.isDigit = rest := by
    cases rest with
    | nil => exact ⟨rfl, rfl⟩
    | cons c r =>
      have hc : ¬ c.isDigit := fun hd => by
        have hword := (hrest c rfl).1
        simp [isWordChar, Char.isAlphanum, hd] at hword
      exact ⟨takeWhile_cons_of_neg hc, dropWhile_cons_of_neg hc⟩
  have htake : (ofNat n ++ rest).takeWhile Char.isDigit = ofNat n := by
    rw [takeWhile_append_of_pos hdigits, hstop.1, append_nil]
  have hdrop : (ofNat n ++ rest).dropWhile Char.isDigit = rest := by
    rw [dropWhile_append_of_pos hdigits, hstop.2]
  have hpoint : ∀ r, rest ≠ '.' :: r := fun r hr => (hrest '.' (by rw [hr]; rfl)).2 rfl
  have hexponent : exponentPart rest = (0, rest) := by
    cases rest with
    | nil => rfl
    | cons c r =>
      have hword := (hrest c rfl).1
      have hc : (c == 'e' || c == 'E') = false := by
        simp only [Bool.or_eq_false_iff, beq_eq_false_iff_ne]
        constructor <;> rintro rfl <;> cases hword
      rw [exponentPart, hc]
      rfl
  have hlong : wholeToken n rest = (.int n, rest) := by
    cases rest with
    | nil => rfl
    | cons c r =>
      have hword := (hrest c rfl).1
      have hc : (c == 'l' || c == 'L') = false := by
        simp only [Bool.or_eq_false_iff, beq_eq_false_iff_ne]
        constructor <;> rintro rfl <;> cases hword
      rw [wholeToken, hc]
      rfl
  have hread : readNat? (if (ofNat n).head? == some '0' then 8 else 10) (ofNat n) = some n := by
    by_cases hzero : n = 0
    · subst hzero
      rfl
    · rw [if_neg (by simpa using head?_ofNat hzero), readNat?_ofNat]
  have hplain : plainNumber (ofNat n ++ rest) = .ok (.int n, rest) := by
    simp only [plainNumber, htake, hdrop, hexponent, hread, hlong]
    simp
  unfold number
  split
  · rename_i c r heq
    have hzero : n = 0 := by
      by_contra hne
      apply head?_ofNat hne
      rw [← head?_append_of_ne_nil _ (ofNat_ne_nil n), heq]
      rfl
    subst hzero
    obtain ⟨_, rfl⟩ := cons.inj heq
    have hword := (hrest c rfl).1
    have hmark : ∀ d : Char, isWordChar d → (c.toLower == d) = false := fun d hd => by
      rw [toLower_eq_self hword, beq_eq_false_iff_ne]
      rintro rfl
      rw [hd] at hword
      cases hword
    simp only [hmark 'x' rfl, hmark 'o' rfl, hmark 'b' rfl, Bool.false_eq_true, if_false]
    exact hplain
  · exact hplain

/-! ## Tokens -/

theorem written_ne_nil (s : Symbol) : s.written ≠ [] := by
  cases s with
  | operand o =>
    cases o with
    | number n => exact ofNat_ne_nil n
    | reference name | colour code => simp [written, Operand.written]
  | operator o | opening | closing => simp [written]

theorem head?_written (s : Symbol) : ∃ c, s.written.head? = some c ∧ isBlank c = false ∧
    (c.isDigit ∨ c ∈ ['$', '#', '+', '-', '*', '(', ')']) := by
  cases s with
  | operand o =>
    cases o with
    | number n =>
      obtain ⟨c, r, hr⟩ := exists_cons_of_ne_nil (ofNat_ne_nil n)
      have hc := isDigit_of_mem_ofNat (n := n) (c := c) (by rw [hr]; exact mem_cons_self)
      refine ⟨c, ?_, isBlank_eq_false_of_class (p := Char.isDigit) hc (by decide), .inl hc⟩
      rw [written, Operand.written, hr]
      rfl
    | reference name => exact ⟨'$', rfl, rfl, .inr (by decide)⟩
    | colour code => exact ⟨'#', rfl, rfl, .inr (by decide)⟩
  | operator o => cases o <;> exact ⟨_, rfl, rfl, .inr (by decide)⟩
  | opening => exact ⟨'(', rfl, rfl, .inr (by decide)⟩
  | closing => exact ⟨')', rfl, rfl, .inr (by decide)⟩

/-- What may follow a sign, as far as its token is concerned. -/
def Ends (s : Symbol) (rest : Text) : Prop :=
  match s with
  | .operand _ => ∀ c ∈ rest.head?, Text.isWordChar c = false ∧ c ≠ '.'
  | .operator .times => rest.head? ≠ some '*'
  | _ => True

theorem nextToken_written (hs : s.isNumeric) (h : Ends s rest) :
    nextToken (s.written ++ rest) = .ok (s.token, rest) := by
  cases s with
  | operand o =>
    cases o with
    | number n =>
      obtain ⟨c, r, hr⟩ := exists_cons_of_ne_nil (ofNat_ne_nil n)
      have hc := isDigit_of_mem_ofNat (n := n) (c := c) (by rw [hr]; exact mem_cons_self)
      have hnumber := number_ofNat n h
      change nextToken (ofNat n ++ rest) = .ok (.int n, rest)
      rw [hr, cons_append] at hnumber ⊢
      rw [nextToken, hc, Bool.true_or, if_pos rfl]
      exact hnumber
    | reference name | colour code => cases hs
  | operator o =>
    cases o with
    | plus | minus => rfl
    | times =>
      cases rest with
      | nil => rfl
      | cons c r =>
        have hc : (('*' : Char) == c) = false := beq_eq_false_iff_ne.mpr fun he => h (he ▸ rfl)
        change nextToken ('*' :: c :: r) = .ok (.sign ['*'], c :: r)
        have hsigns : signs.find? (·.isPrefixOf ('*' :: c :: r)) = some ['*'] := by
          simp [signs, List.find?, List.isPrefixOf, hc]
        have hclass : ('*'.isDigit || ('*' == '.' && (Option.map Char.isDigit (c :: r).head?).getD false)) = false := rfl
        have hstart : isNameStart '*' = false := rfl
        have hquote : isQuote '*' = false := rfl
        simp only [nextToken, hclass, hstart, hquote, hsigns, Bool.false_eq_true, if_false]
        rfl
  | opening | closing => rfl

theorem text_cons (k : Nat) (s : Symbol) (x : Spelling) :
    text ((k, s) :: x) = replicate k ' ' ++ (s.written ++ x.text) := by
  rw [text, flatMap_cons, append_assoc]
  rfl

theorem head?_text {j : Nat} (h : (x.text ++ replicate j ' ').head? = some c) :
    c = ' ' ∨ ∃ y ∈ x.head?, y.2.written.head? = some c := by
  cases x with
  | nil => exact .inl (eq_of_mem_replicate (mem_of_mem_head? h))
  | cons y x =>
    obtain ⟨k, s⟩ := y
    rw [text_cons] at h
    cases k with
    | zero =>
      rw [replicate_zero, nil_append, append_assoc, head?_append_of_ne_nil _ (written_ne_nil s)] at h
      exact .inr ⟨_, rfl, h⟩
    | succ k =>
      cases h
      exact .inl rfl

theorem head?_of_not_operand (hs : ∀ o, s ≠ .operand o)
    (h : s.written.head? = some c) : isWordChar c = false ∧ c ≠ '.' := by
  cases s with
  | operand o => exact absurd rfl (hs o)
  | operator o => cases o <;> cases h <;> decide
  | opening | closing => cases h; decide

theorem eq_times_of_head? (h : s.written.head? = some '*') : s = .operator .times := by
  cases s with
  | operand o =>
    cases o with
    | number n => cases isDigit_of_mem_ofNat (mem_of_mem_head? h)
    | reference name | colour code => cases h
  | operator o => cases o <;> cases h; rfl
  | opening | closing => cases h

theorem ends_text (h : ∀ y ∈ x.head?, s.areApart y.2) (j : Nat) : Ends s (x.text ++ replicate j ' ') := by
  cases s with
  | operand o =>
    intro c hc
    rcases head?_text hc with rfl | ⟨y, hy, hhead⟩
    · decide
    · refine head?_of_not_operand (fun o' ho => ?_) hhead
      have hpair := h y hy
      rw [ho] at hpair
      cases hpair
  | operator o =>
    cases o with
    | times =>
      intro hc
      rcases head?_text hc with hspace | ⟨y, hy, hhead⟩
      · cases hspace
      · have hpair := h y hy
        rw [eq_times_of_head? hhead] at hpair
        cases hpair
    | plus | minus => trivial
  | opening | closing => trivial

theorem tokensFrom_spaces (fuel depth k : Nat) (started : Bool) (r : Text) :
    tokensFrom (fuel + k) depth started (replicate k ' ' ++ r) = tokensFrom fuel depth started r := by
  induction k with
  | zero => rfl
  | succ k ih =>
    rw [← Nat.add_assoc, replicate_succ, cons_append]
    refine Eq.trans ?_ ih
    have hgap : isGap ' ' := rfl
    rw [tokensFrom.eq_def]
    simp [hgap]

theorem tokensFrom_written (hs : s.isNumeric) (h : Ends s rest) (fuel depth : Nat) (started : Bool) :
    ∃ depth', tokensFrom (fuel + 1) depth started (s.written ++ rest) =
      (tokensFrom fuel depth' true rest).map (s.token :: ·) := by
  obtain ⟨c, hc, hblank, hsign⟩ := head?_written s
  obtain ⟨w, hw⟩ := head?_eq_some_iff.mp hc
  have hnext := nextToken_written hs h
  have hgap : isGap c = false := by
    rw [isGap]
    simp only [Bool.or_eq_false_iff, beq_eq_false_iff_ne]
    refine ⟨⟨?_, ?_⟩, ?_⟩ <;> rintro rfl <;> cases hblank
  have hplain : (c == '#') = false ∧ (c == '\\') = false ∧ (c == '\n') = false := by
    simp only [beq_eq_false_iff_ne]
    refine ⟨?_, ?_, ?_⟩
    · rintro rfl
      cases s with
      | operand o =>
        cases o with
        | number n => cases isDigit_of_mem_ofNat (mem_of_mem_head? hc)
        | reference name | colour code => cases hs
      | operator o => cases o <;> cases hc
      | opening | closing => cases hc
    · rintro rfl
      rcases hsign with hd | hd
      · cases hd
      · exact absurd hd (by decide)
    · rintro rfl
      cases hblank
  rw [hw, cons_append] at hnext ⊢
  refine ⟨if isOpening s.token then depth + 1 else if isClosing s.token then depth - 1 else depth, ?_⟩
  rw [tokensFrom.eq_def]
  simp only [hgap, hplain.1, hplain.2.1, hplain.2.2, Bool.false_eq_true, if_false, hnext]
  rfl

theorem tokensFrom_text (hx : ∀ y ∈ x, y.2.isLiteral) (hline : '\n' ∉ x.text)
    (hapart : x.IsChain fun y z => y.2.areApart z.2) {fuel j : Nat} (hfuel : x.text.length + j < fuel)
    (depth : Nat) (started : Bool) : tokensFrom fuel depth started (x.text ++ replicate j ' ') =
      .ok (((x.map (·.2)).takeWhile Symbol.isNumeric).map token) := by
  induction x generalizing fuel depth started with
  | nil =>
    obtain ⟨n, rfl⟩ : ∃ n, fuel = n + 1 + j := ⟨fuel - j - 1, by omega⟩
    rw [← append_nil (text [] ++ _)]
    exact tokensFrom_spaces _ depth j started []
  | cons y x ih =>
    obtain ⟨k, s⟩ := y
    obtain ⟨hhead, htail⟩ := isChain_cons.mp hapart
    have hlength := length_pos_of_ne_nil (written_ne_nil s)
    rw [text_cons] at hfuel hline ⊢
    simp only [length_append, length_replicate] at hfuel
    simp only [mem_append, not_or] at hline
    obtain ⟨n, rfl⟩ : ∃ n, fuel = n + 1 + k := ⟨fuel - k - 1, by omega⟩
    rw [append_assoc, append_assoc, tokensFrom_spaces]
    cases hs : s.isNumeric with
    | true =>
      obtain ⟨depth', hstep⟩ := tokensFrom_written hs (ends_text hhead j) n depth started
      rw [hstep, ih (forall_mem_cons.mp hx).2 hline.2.2 htail (by omega), map_cons,
        takeWhile_cons_of_pos hs]
      rfl
    | false =>
      obtain ⟨code, rfl⟩ : ∃ code, s = .operand (.colour code) := by
        cases s with
        | operand o =>
          cases o with
          | number n => cases hs
          | reference name => cases hx _ mem_cons_self
          | colour code => exact ⟨code, rfl⟩
        | operator o | opening | closing => cases hs
      have hdrop : (code ++ (text x ++ replicate j ' ')).dropWhile (· != '\n') = [] := by
        refine dropWhile_eq_nil_iff.mpr fun c hc => bne_iff_ne.mpr ?_
        rintro rfl
        rcases mem_append.mp hc with hc | hc
        · exact hline.2.1 (.tail _ hc)
        · rcases mem_append.mp hc with hc | hc
          · exact hline.2.2 hc
          · cases eq_of_mem_replicate hc
      obtain ⟨n, rfl⟩ : ∃ j, n = j + 1 := ⟨n - 1, by omega⟩
      change tokensFrom (n + 1) depth started ((code ++ (text x ++ _)).dropWhile (· != '\n')) = _
      rw [hdrop]
      rfl

theorem mem_text (h : c ∈ x.text) : c = ' ' ∨ ∃ y ∈ x, c ∈ y.2.written := by
  obtain ⟨y, hy, hc⟩ := mem_flatMap.mp h
  rcases mem_append.mp hc with hc | hc
  · exact .inl (eq_of_mem_replicate hc)
  · exact .inr ⟨y, hy, hc⟩

theorem mem_written_of_isNumeric (hs : s.isNumeric) (hc : c ∈ s.written) :
    c.isDigit ∨ c ∈ ['+', '-', '*', '(', ')'] := by
  cases s with
  | operand o =>
    cases o with
    | number n => exact .inl (isDigit_of_mem_ofNat hc)
    | reference name | colour code => cases hs
  | operator o => cases o <;> (obtain rfl := mem_singleton.mp hc; exact .inr (by decide))
  | opening | closing => obtain rfl := mem_singleton.mp hc; exact .inr (by decide)

theorem tokens_text (hx : ∀ y ∈ x, y.2.isLiteral) (hlines : ∀ c ∈ x.text, c ≠ '\n' ∧ c ≠ '\r')
    (hapart : x.IsChain fun y z => y.2.areApart z.2) (hne : x ≠ []) (j : Nat) :
    tokens (x.text ++ replicate j ' ') = .ok (((x.map (·.2)).takeWhile Symbol.isNumeric).map token) := by
  have hline : '\r' ∉ x.text ++ replicate j ' ' := by
    intro hm
    rcases mem_append.mp hm with hm | hm
    · exact (hlines _ hm).2 rfl
    · cases eq_of_mem_replicate hm
  rw [tokens, unifyLines_eq_self hline]
  cases x with
  | nil => exact absurd rfl hne
  | cons y x =>
    obtain ⟨k, s⟩ := y
    obtain ⟨c, hc, hblank, _⟩ := head?_written s
    obtain ⟨w, hw⟩ := head?_eq_some_iff.mp hc
    have hstart : (text ((k, s) :: x) ++ replicate j ' ').dropWhile (fun c => c == ' ' || c == '\t') =
        text ((0, s) :: x) ++ replicate j ' ' := by
      have hspaces : ∀ d ∈ replicate k ' ', (d == ' ' || d == '\t') := fun d hd => by
        rw [eq_of_mem_replicate hd]
        rfl
      have hstop : ¬ (c == ' ' || c == '\t') := by
        simp only [Bool.or_eq_true, beq_iff_eq]
        rintro (rfl | rfl) <;> cases hblank
      rw [text_cons, text_cons, append_assoc, dropWhile_append_of_pos hspaces, hw, cons_append, cons_append,
        dropWhile_cons_of_neg (p := fun c => c == ' ' || c == '\t') hstop]
      rfl
    have hrest := tokensFrom_text (x := (0, s) :: x) (j := j) (fun z hz => ?_) ?_ ?_ (Nat.lt_succ_self _) 0 false
    · simp only [hstart, length_append, length_replicate]
      exact hrest
    · rcases mem_cons.mp hz with rfl | hz
      · exact hx (k, s) mem_cons_self
      · exact hx z (.tail _ hz)
    · intro hm
      refine (hlines '\n' ?_).1 rfl
      rw [text_cons] at hm ⊢
      exact mem_append_right _ hm
    · obtain ⟨hhead, htail⟩ := isChain_cons.mp hapart
      exact isChain_cons.mpr ⟨hhead, htail⟩

/-! ## Reading -/

namespace Expr

/-- What may follow an expression whose operators bind at a level or tighter. -/
def Stops (level : Nat) : Tokens → Prop
  | [] => True
  | .sign [c] :: _ => c = ')' ∨ ∃ o : Operator, c = o.char ∧ o.level < level
  | _ => False

theorem Stops.nil (l : Nat) : Stops l [] := trivial

variable {l n : Nat} {ts : Tokens}

theorem Stops.mono {m : Nat} (hlm : l ≤ m) (h : Stops l ts) : Stops m ts := by
  unfold Stops at h ⊢
  split at h
  · trivial
  · rcases h with h | ⟨o, ho, hl⟩
    · exact .inl h
    · exact .inr ⟨o, ho, by omega⟩
  · exact h.elim

theorem Stops.cases (h : Stops l ts) :
    ts = [] ∨ (∃ r, ts = .sign [')'] :: r) ∨ ∃ (o : Operator) (r : Tokens), ts = .sign [o.char] :: r ∧ o.level < l := by
  unfold Stops at h
  split at h
  · exact .inl rfl
  · rcases h with rfl | ⟨o, rfl, hl⟩
    · exact .inr (.inl ⟨_, rfl⟩)
    · exact .inr (.inr ⟨o, _, rfl, hl⟩)
  · exact h.elim

theorem Stops.unary (h : Stops l ts) : Stops 11 ts := by
  rcases h.cases with rfl | ⟨r, rfl⟩ | ⟨o, r, rfl, _⟩
  · trivial
  · exact .inl rfl
  · exact .inr ⟨o, rfl, by cases o <;> decide⟩

theorem readRest_stops (h : Stops l ts) (e : Expr) : readRest (n + 1) l e ts = .ok (e, ts) := by
  rcases h.cases with rfl | ⟨r, rfl⟩ | ⟨o, r, rfl, hl⟩
  · rfl
  · rfl
  · cases o <;> simp [readRest, compareOp?, binaryOp?, Operator.char, Operator.level] at hl ⊢ <;> omega

theorem readRest_operator (o : Operator) (hl : l ≤ o.level) (e : Expr) (ts : Tokens) :
    readRest (n + 1) l e (.sign [o.char] :: ts) = (do
        let (right, ts) ← readLevel n (o.level + 1) ts
        readRest n l (.binary o.binary e right) ts) := by
  cases o <;> simp [readRest, compareOp?, binaryOp?, Operator.char, Operator.level, Operator.binary] at hl ⊢ <;>
    (intro hlt; omega)

theorem readTrailers_stops (h : Stops l ts) (e : Expr) : readTrailers (n + 1) e ts = .ok (e, ts) := by
  rcases h.cases with rfl | ⟨r, rfl⟩ | ⟨o, r, rfl, _⟩
  · rfl
  · rfl
  · cases o <;> rfl

theorem readLevel_group {e : Expr} {rest : Tokens} (hts : startsWithSign [')'] ts = false)
    (hinside : readLevel n orLevel ts = .ok (e, .sign [')'] :: rest)) {m : Nat} (hrest : Stops m rest) :
    readLevel (n + 3) l (.sign ['('] :: ts) = readRest (n + 2) l e rest := by
  have hfull : readFull (n + 1) ts = .ok (e, .sign [')'] :: rest) := by
    rw [readFull, hinside]
    rfl
  have hatom : readAtom (n + 2) (.sign ['('] :: ts) = .ok (e, rest) := by
    rw [readAtom, hts, hfull]
    rfl
  change (do
    let (e, ts) ← readAtom (n + 2) (.sign ['('] :: ts)
    let (e, ts) ← readTrailers (n + 2) e ts
    readRest (n + 2) l e ts) = _
  rw [hatom]
  change (readTrailers (n + 2) e rest >>= _) = _
  rw [readTrailers_stops hrest]
  rfl

theorem startsWithSign_signs (f : Formula) (ts : Tokens) :
    startsWithSign [')'] (f.signs.map token ++ ts) = false := by
  induction f generalizing ts with
  | operand o => cases o <;> rfl
  | negative f _ => rfl
  | binary o a b iha _ =>
    rw [Formula.signs, map_append, append_assoc]
    exact iha _
  | group f _ => rfl

theorem signed_tree {f : Formula} (hnumeric : f.isNumeric) (hl : 11 ≤ f.level) (rest : Tokens) :
    signed .minus (f.signs.map token ++ rest) rest f.tree = f.negative.tree := by
  cases f with
  | operand o =>
    cases o with
    | number n => exact if_pos rfl
    | reference name | colour code => cases hnumeric
  | negative f | group f => rfl
  | binary o a b => exact absurd (show 11 ≤ o.level from hl) (by cases o <;> decide)

/-- The tokens of a formula are read as its tree, and the reader goes on behind them. -/
theorem readLevel_signs {f : Formula} (hfits : f.fits) (hnumeric : f.isNumeric)
    {rest : Tokens} (hn : 4 * f.signs.length ≤ n) (hl : l ≤ f.level) (hrest : Stops (f.level + 1) rest) :
    ∃ m, n ≤ m + f.signs.length ∧ m < n ∧
      readLevel n l (f.signs.map token ++ rest) = readRest m l f.tree rest := by
  induction f generalizing n l rest with
  | operand o =>
    obtain ⟨n, rfl⟩ : ∃ j, n = j + 2 := ⟨n - 2, by simp only [Formula.signs, length_singleton] at hn; omega⟩
    cases o with
    | number k =>
      refine ⟨n + 1, Nat.le_refl _, Nat.lt_succ_self _, ?_⟩
      change (readTrailers (n + 1) (.value (.whole k)) rest >>= _) = _
      rw [readTrailers_stops hrest]
      rfl
    | reference name | colour code => cases hnumeric
  | negative f ih =>
    simp only [Formula.fits, Bool.and_eq_true, decide_eq_true_eq] at hfits
    simp only [Formula.signs, length_cons] at hn ⊢
    obtain ⟨n, rfl⟩ : ∃ j, n = j + 1 := ⟨n - 1, by omega⟩
    have hstop : Stops 11 rest := hrest.unary
    obtain ⟨m, hm, hlt, hread⟩ := ih hfits.1 hnumeric (n := n) (l := 11) (by omega) hfits.2
      (hstop.mono (by omega))
    obtain ⟨m, rfl⟩ : ∃ j, m = j + 1 := ⟨m - 1, by omega⟩
    refine ⟨n, by omega, Nat.lt_succ_self _, ?_⟩
    change (readLevel n unaryLevel (f.signs.map token ++ rest) >>= _) = _
    rw [unaryLevel, hread, readRest_stops hstop, ← signed_tree (f := f) hnumeric hfits.2]
    rfl
  | binary o a b iha ihb =>
    simp only [Formula.fits, Bool.and_eq_true, decide_eq_true_eq] at hfits
    obtain ⟨⟨⟨hfa, hfb⟩, hla⟩, hlb⟩ := hfits
    simp only [Formula.isNumeric, Formula.operands, all_append, Bool.and_eq_true] at hnumeric
    simp only [Formula.signs, length_append, length_cons] at hn ⊢
    change l ≤ o.level at hl
    -- The left operand is read up to the operator, and the right one at the level above.
    have hoperator : Stops (a.level + 1) (.sign [o.char] :: (b.signs.map token ++ rest)) :=
      .inr ⟨o, rfl, by omega⟩
    obtain ⟨m, hm, hlt, hleft⟩ := iha hfa hnumeric.1 (n := n) (by omega) (hl.trans hla) hoperator
    obtain ⟨m, rfl⟩ : ∃ j, m = j + 1 := ⟨m - 1, by omega⟩
    obtain ⟨j, hj, hlt', hright⟩ := ihb hfb hnumeric.2 (n := m) (l := o.level + 1) (by omega) hlb
      (hrest.mono (Nat.succ_le_succ (Nat.le_of_lt hlb)))
    obtain ⟨j, rfl⟩ : ∃ i, j = i + 1 := ⟨j - 1, by omega⟩
    refine ⟨m, by omega, by omega, ?_⟩
    have hsigns : map token (a.signs ++ .operator o :: b.signs) ++ rest =
        a.signs.map token ++ .sign [o.char] :: (b.signs.map token ++ rest) := by
      rw [map_append, append_assoc]
      rfl
    have hstop : Stops (o.level + 1) rest := hrest
    rw [hsigns, hleft, readRest_operator o hl, hright, readRest_stops hstop]
    rfl
  | group f ih =>
    simp only [Formula.signs, length_append, length_cons] at hn ⊢
    obtain ⟨n, rfl⟩ : ∃ j, n = j + 3 := ⟨n - 3, by omega⟩
    have hclosing : ∀ l, Stops l (.sign [')'] :: rest) := fun l => .inl rfl
    obtain ⟨m, hm, hlt, hread⟩ := ih hfits hnumeric (n := n) (l := orLevel) (by omega) f.one_le_level
      (hclosing _)
    obtain ⟨m, rfl⟩ : ∃ j, m = j + 1 := ⟨m - 1, by omega⟩
    rw [readRest_stops (hclosing _)] at hread
    refine ⟨n + 2, by omega, Nat.lt_succ_self _, ?_⟩
    have hsigns : map token (.opening :: (f.signs ++ [.closing])) ++ rest =
        .sign ['('] :: (f.signs.map token ++ .sign [')'] :: rest) := by
      rw [map_cons, map_append, cons_append, append_assoc]
      rfl
    rw [hsigns]
    exact readLevel_group (startsWithSign_signs f _) hread hrest

end Expr

theorem compute_whole {n : Int} (h : fitsWord n) : (Expr.value (.whole n)).compute = .ok (.int n) := by
  rw [Expr.compute, Value.whole, if_pos h]

theorem compute_tree {f : Formula} (hnumeric : f.isNumeric) {env : Text → Int} (hsmall : f.isSmall env) :
    f.tree.compute = .ok (.int (f.value env)) := by
  induction f with
  | operand o =>
    cases o with
    | number n => exact compute_whole hsmall
    | reference name | colour code => cases hnumeric
  | negative f ih =>
    rw [Formula.isSmall, Bool.and_eq_true, Bool.or_eq_true] at hsmall
    have hfits : f.isNumeral = false → f.negative.tree = .unary .minus f.tree →
        f.negative.tree.compute = .ok (.int (-f.value env)) := by
      intro hnot htree
      rw [htree, Expr.compute, ih hnumeric (hsmall.1.resolve_left (by simp [hnot]))]
      exact congrArg Except.ok (if_pos hsmall.2)
    cases f with
    | operand o =>
      cases o with
      | number n => exact compute_whole hsmall.2
      | reference name | colour code => cases hnumeric
    | negative f | binary o a b | group f => exact hfits rfl rfl
  | binary o a b iha ihb =>
    simp only [Formula.isNumeric, Formula.operands, all_append, Bool.and_eq_true] at hnumeric
    simp only [Formula.isSmall, Bool.and_eq_true] at hsmall
    rw [Formula.tree, Expr.compute, iha hnumeric.1 hsmall.1.1, ihb hnumeric.2 hsmall.1.2]
    cases o <;> exact congrArg Except.ok (if_pos hsmall.2)
  | group f ih => exact ih hnumeric hsmall

end Expression

namespace Formula
variable {f : Formula} {x : Spelling}

theorem isNumeric_signs (h : f.isNumeric) : ∀ s ∈ f.signs, s.isNumeric := by
  induction f with
  | operand o =>
    intro s hs
    obtain rfl := mem_singleton.mp hs
    exact all_eq_true.mp h o mem_cons_self
  | negative f ih =>
    intro s hs
    rcases mem_cons.mp hs with rfl | hs
    · rfl
    · exact ih h s hs
  | binary o a b iha ihb =>
    simp only [isNumeric, operands, all_append, Bool.and_eq_true] at h
    intro s hs
    rcases mem_append.mp hs with hs | hs
    · exact iha h.1 s hs
    · rcases mem_cons.mp hs with rfl | hs
      · rfl
      · exact ihb h.2 s hs
  | group f ih =>
    intro s hs
    rcases mem_cons.mp hs with rfl | hs
    · rfl
    · rcases mem_append.mp hs with hs | hs
      · exact ih h s hs
      · obtain rfl := mem_singleton.mp hs
        rfl

theorem head?_signs (f : Formula) : ∃ s, f.signs.head? = some s ∧ s ≠ .operator .times := by
  induction f with
  | operand o | negative f _ => exact ⟨_, rfl, by simp⟩
  | binary o a b iha _ =>
    obtain ⟨s, hs, hne⟩ := iha
    obtain ⟨r, hr⟩ := head?_eq_some_iff.mp hs
    exact ⟨s, by rw [signs, hr]; rfl, hne⟩
  | group f _ => exact ⟨_, rfl, by simp⟩

theorem getLast?_signs (f : Formula) : ∃ s, f.signs.getLast? = some s ∧ ∀ o, s ≠ .operator o := by
  induction f with
  | operand o => exact ⟨_, rfl, by simp⟩
  | negative f ih =>
    obtain ⟨s, hs, hne⟩ := ih
    refine ⟨s, ?_, hne⟩
    rw [signs, getLast?_cons, hs]
    rfl
  | binary o a b _ ihb =>
    obtain ⟨s, hs, hne⟩ := ihb
    refine ⟨s, ?_, hne⟩
    rw [signs, getLast?_append, getLast?_cons, hs]
    rfl
  | group f _ =>
    refine ⟨.closing, ?_, by simp⟩
    rw [signs, getLast?_cons, getLast?_concat]
    rfl

theorem isChain_signs (f : Formula) : f.signs.IsChain fun s t => s.areApart t := by
  induction f with
  | operand o => exact .singleton _
  | negative f ih =>
    refine isChain_cons.mpr ⟨fun t ht => ?_, ih⟩
    rfl
  | binary o a b iha ihb =>
    obtain ⟨s, hs, hne⟩ := getLast?_signs a
    obtain ⟨t, ht, hne'⟩ := head?_signs b
    refine IsChain.append iha (isChain_cons.mpr ⟨fun y hy => ?_, ihb⟩) fun y hy z hz => ?_
    · rw [ht] at hy
      cases hy
      cases t with
      | operator p =>
        cases p with
        | times => exact absurd rfl hne'
        | plus | minus => cases o <;> rfl
      | operand p | opening | closing => cases o <;> rfl
    · rw [hs] at hy
      cases hy
      cases hz
      cases s with
      | operator p => exact absurd rfl (hne p)
      | operand p | opening | closing => rfl
  | group f ih =>
    refine isChain_cons.mpr ⟨fun t ht => rfl, IsChain.append ih (.singleton _) fun y hy z hz => ?_⟩
    cases hz
    cases y with
    | operator p => cases p <;> rfl
    | operand p | opening | closing => rfl

theorem signs_ne_nil (f : Formula) : f.signs ≠ [] := by
  obtain ⟨s, hs, _⟩ := head?_signs f
  exact fun hnil => by simp [hnil] at hs

theorem ne_nil_of_signs (hx : x.map (·.2) = f.signs) : x ≠ [] := by
  rintro rfl
  exact f.signs_ne_nil hx.symm

theorem result_text (hfits : f.fits) (hnumeric : f.isNumeric) (hx : x.map (·.2) = f.signs)
    {env : Text → Int} (hsmall : f.isSmall env) (j : Nat) : result (x.text ++ replicate j ' ') = .ok (ofInt (f.value env)) := by
  have hsigns : ∀ y ∈ x, y.2.isNumeric := fun y hy => isNumeric_signs hnumeric _ (hx ▸ mem_map_of_mem hy)
  have hapart : x.IsChain fun y z => y.2.areApart z.2 := by
    have hchain := isChain_signs f
    rwa [← hx, isChain_map] at hchain
  have hliteral : ∀ y ∈ x, y.2.isLiteral := fun y hy => Symbol.isLiteral_of_isNumeric (hsigns y hy)
  have hlines : ∀ c ∈ x.text, c ≠ '\n' ∧ c ≠ '\r' := by
    intro c hc
    rcases mem_text hc with rfl | ⟨y, hy, hc⟩
    · decide
    · rcases mem_written_of_isNumeric (hsigns y hy) hc with hdigit | hc
      · exact ⟨ne_of_class hdigit (by decide), ne_of_class hdigit (by decide)⟩
      · constructor <;> rintro rfl <;> exact absurd hc (by decide)
  have htokens : tokens (x.text ++ replicate j ' ') = .ok (f.signs.map token) := by
    rw [tokens_text hliteral hlines hapart (ne_nil_of_signs hx), hx, takeWhile_eq_self_iff.mpr]
    exact fun s hs => isNumeric_signs hnumeric s hs
  obtain ⟨m, hm, _, hread⟩ := Expr.readLevel_signs hfits hnumeric
    (n := 4 * f.signs.length + 3) (l := Expr.orLevel) (by omega) f.one_le_level (.nil _)
  obtain ⟨m, rfl⟩ : ∃ j, m = j + 1 := ⟨m - 1, by omega⟩
  rw [append_nil, Expr.readRest_stops (.nil _)] at hread
  have hfull : Expr.readFull (4 * (f.signs.map token).length + 4) (f.signs.map token) =
      .ok (f.tree, []) := by
    rw [length_map, Expr.readFull, hread]
    rfl
  have htree : Expr.read (x.text ++ replicate j ' ') = .ok f.tree := by
    rw [Expr.read, htokens]
    change (Expr.readFull _ _ >>= _) = _
    rw [hfull]
    rfl
  rw [result, compute, htree]
  change (f.tree.compute >>= _) = _
  rw [compute_tree hnumeric hsmall]
  rfl

end Formula
end OutlineMarkup
