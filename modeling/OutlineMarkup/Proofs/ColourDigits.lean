import Mathlib.Data.Nat.Digits.Defs
import OutlineMarkup.Proofs.Evaluation

/-!
# Digits of colours

The digits of a colour are a number of base 16, in which letters count alike in both cases and each of
three digits counts twice. Main statement: numbers below 16 ^ 6 are written with six digits, and each is
read back from them.
-/

namespace OutlineMarkup
open List Text Arithmetic
variable {n : Nat} {code : Text}

namespace Arithmetic
variable {c : Char}

theorem mem_of_isHexDigit (h : isHexDigit c) : c ∈ "0123456789abcdefABCDEF".toList := by
  have hascii : c.toNat < 128 := by
    have hword := isWordChar_of_isHexDigit h
    have hclass : isWordChar c = (decide (65 ≤ c.val ∧ c.val ≤ 90) || (decide (97 ≤ c.val) && decide (c.val ≤ 122)) ||
      (decide (48 ≤ c.val) && decide (c.val ≤ 57)) || c == '_') := rfl
    simp only [hclass, UInt32.le_iff_toNat_le, Bool.or_eq_true, Bool.and_eq_true, decide_eq_true_eq,
      beq_iff_eq] at hword
    change ((65 ≤ c.toNat ∧ c.toNat ≤ 90 ∨ 97 ≤ c.toNat ∧ c.toNat ≤ 122) ∨ 48 ≤ c.toNat ∧ c.toNat ≤ 57) ∨
      c = '_' at hword
    rcases hword with hword | rfl
    · omega
    · decide
  have hall : ∀ n < 128, isHexDigit (Char.ofNat n) → Char.ofNat n ∈ "0123456789abcdefABCDEF".toList := by
    decide +kernel
  have hmem := hall c.toNat hascii
  rw [Char.ofNat_toNat] at hmem
  exact hmem h

end Arithmetic

/-! ## Base 16 -/

namespace Colour
variable {c : Char} {s w : Text}

def lowerDigits : Text := "0123456789abcdef"

/-- The value of a digit of base 16, in either case. -/
def digit (c : Char) : Nat := lowerDigits.idxOf c.toLower

def base16 (s : Text) : Nat := s.foldl (fun n c => n * 16 + digit c) 0

theorem digit_of_isHexDigit (h : isHexDigit c) :
    digitValue? c = some (digit c) ∧ digit c < 16 ∧ c.toLower ∈ lowerDigits ∧ digit c.toLower = digit c := by
  have hall : ∀ d ∈ "0123456789abcdefABCDEF".toList,
      digitValue? d = some (digit d) ∧ digit d < 16 ∧ d.toLower ∈ lowerDigits ∧ digit d.toLower = digit d := by
    decide
  exact hall c (mem_of_isHexDigit h)

theorem isHexDigit_of_mem (h : c ∈ lowerDigits) : isHexDigit c := by
  revert h
  revert c
  decide

theorem isHexDigit_toLower (h : ∀ c ∈ s, isHexDigit c) : ∀ c ∈ s.toLower, isHexDigit c := by
  intro c hc
  obtain ⟨d, hd, rfl⟩ := mem_map.mp hc
  exact isHexDigit_of_mem (digit_of_isHexDigit (h d hd)).2.2.1

theorem base16_concat (s : Text) (c : Char) : base16 (s ++ [c]) = base16 s * 16 + digit c := by
  rw [base16, foldl_append]
  rfl

theorem base16_toLower (h : ∀ c ∈ s, isHexDigit c) : base16 s.toLower = base16 s := by
  rw [base16, toLower, foldl_map, base16]
  apply foldl_ext
  intro n c hc
  rw [(digit_of_isHexDigit (h c hc)).2.2.2]

theorem digitsFrom?_hex (hw : ∀ c ∈ w, isHexDigit c) (acc : Nat) :
    digitsFrom? 16 acc w = some (w.foldl (fun n c => n * 16 + digit c) acc) := by
  induction w generalizing acc with
  | nil => rfl
  | cons c w ih =>
    obtain ⟨hvalue, hlt, _⟩ := digit_of_isHexDigit (hw c mem_cons_self)
    rw [digitsFrom?, hvalue]
    simp only [if_pos hlt]
    exact ih (forall_mem_cons.mp hw).2 _

theorem readInt?_hex (hne : w ≠ []) (hw : ∀ c ∈ w, isHexDigit c) : w.readInt? 16 = some (base16 w : Int) := by
  have hplain : ∀ c ∈ "0123456789abcdefABCDEF".toList,
      isBlank c = false ∧ c ≠ '-' ∧ c ≠ '+' ∧ c.toLower ≠ 'x' := by decide
  have hsolid : Solid w := solid_of_forall hne fun c hc => (hplain c (mem_of_isHexDigit (hw c hc))).1
  have hsign : takeSign w = (false, w) := by
    unfold takeSign
    split
    · exact absurd rfl (hplain _ (mem_of_isHexDigit (hw '-' mem_cons_self))).2.1
    · exact absurd rfl (hplain _ (mem_of_isHexDigit (hw '+' mem_cons_self))).2.2.1
    · rfl
  have hmark : dropBaseMark 16 w = w := by
    unfold dropBaseMark
    split
    · rename_i c s
      have hc := (hplain c (mem_of_isHexDigit (hw c (by simp)))).2.2.2
      simp [hc]
    · rfl
  simp only [readInt?, hsolid.trim_eq, hsign, hmark, readNat?, isEmpty_eq_false_iff.mpr hne, digitsFrom?_hex hw]
  rfl

/-- Digits of the lower case are determined by their number and how many they are. -/
theorem eq_of_foldl_eq {a b : Text} (ha : ∀ c ∈ a, c ∈ lowerDigits) (hb : ∀ c ∈ b, c ∈ lowerDigits)
    (hlength : a.length = b.length) {m : Nat}
    (h : a.foldl (fun n c => n * 16 + digit c) m = b.foldl (fun n c => n * 16 + digit c) n) : m = n ∧ a = b := by
  induction a generalizing b m n with
  | nil =>
    obtain rfl := eq_nil_of_length_eq_zero hlength.symm
    exact ⟨h, rfl⟩
  | cons c a ih =>
    obtain ⟨d, b, rfl⟩ := exists_cons_of_length_eq_add_one hlength.symm
    obtain ⟨hc, ha⟩ := forall_mem_cons.mp ha
    obtain ⟨hd, hb⟩ := forall_mem_cons.mp hb
    have hinj : ∀ c ∈ lowerDigits, ∀ d ∈ lowerDigits, digit c = digit d → c = d := by decide
    have hltc := (digit_of_isHexDigit (isHexDigit_of_mem hc)).2.1
    have hltd := (digit_of_isHexDigit (isHexDigit_of_mem hd)).2.1
    obtain ⟨hmn, rfl⟩ := ih ha hb (Nat.succ.inj hlength) h
    change m * 16 + digit c = n * 16 + digit d at hmn
    obtain rfl := hinj c hc d hd (by omega)
    exact ⟨by omega, rfl⟩

/-! ## Reading colours -/

/-- Three digits each of which counts twice, or six digits. -/
def sixDigits (code : Text) : Text := if code.length = 3 then code.flatMap fun c => [c, c] else code

theorem names_not_digits : names.all (fun x => x.1.toList.any fun c => !isHexDigit c) := by
  decide +kernel

theorem named?_eq_none (h : ∀ c ∈ code, isHexDigit c) : named? code = none := by
  rw [named?, Option.map_eq_none_iff, lookup_eq_none_iff]
  intro x hx
  rw [bne_iff_ne]
  intro heq
  obtain ⟨c, hc, hnot⟩ := any_eq_true.mp (all_eq_true.mp names_not_digits x hx)
  rw [← heq, String.toList_ofList] at hc
  rw [h c hc] at hnot
  cases hnot

theorem toNumber_eq {d : Text} (hd : digits code.toLower = .ok d) (hne : d ≠ []) (hhex : ∀ c ∈ d, isHexDigit c) :
    toNumber code = .ok (base16 d : Int) := by
  simp only [toNumber, hd, bind, Except.bind, readInt?_hex hne hhex]
  rfl

theorem toNumber_digits (h : ∀ c ∈ code, isHexDigit c)
    (hlength : code.length = 3 ∨ code.length = 6) : toNumber code = .ok (base16 (sixDigits code) : Int) := by
  have hlower := isHexDigit_toLower h
  have hnone := named?_eq_none hlower
  rcases hlength with hlength | hlength
  · obtain ⟨r, g, b, rfl⟩ := length_eq_three.mp hlength
    have hall : ∀ c ∈ [r, r, g, g, b, b], isHexDigit c := fun c hc => h c (by
      simp only [mem_cons, not_mem_nil, or_false] at hc ⊢
      tauto)
    have hdigits : digits (toLower [r, g, b]) = .ok (toLower [r, r, g, g, b, b]) := by
      unfold digits
      rw [hnone]
      rfl
    rw [toNumber_eq hdigits (cons_ne_nil _ _) (isHexDigit_toLower hall), base16_toLower hall]
    rfl
  · have hsix : code.toLower.length = 6 := (length_map _).trans hlength
    have hdigits : digits code.toLower = .ok code.toLower := by
      unfold digits
      rw [hnone]
      dsimp only
      split
      · rename_i heq
        rw [heq] at hsix
        cases hsix
      · exact if_pos hsix
    rw [toNumber_eq hdigits (ne_nil_of_length_pos (by omega)) hlower, base16_toLower h, sixDigits, if_neg (by omega)]

/-! ## Writing colours -/

theorem base16_toDigits (n : Nat) : base16 (Nat.toDigits 16 n) = n ∧ ∀ c ∈ Nat.toDigits 16 n, c ∈ lowerDigits := by
  have hdigit : ∀ d < 16, digit d.digitChar = d ∧ d.digitChar ∈ lowerDigits := by decide
  induction n using Nat.strongRecOn with
  | _ n ih =>
    by_cases hlt : n < 16
    · rw [Nat.toDigits_of_lt_base hlt]
      obtain ⟨hvalue, hmem⟩ := hdigit n hlt
      refine ⟨?_, forall_mem_singleton.mpr hmem⟩
      rw [← nil_append [n.digitChar], base16_concat, hvalue]
      exact Nat.zero_add n
    · obtain ⟨hvalue, hmem⟩ := ih (n / 16) (by omega)
      obtain ⟨hlast, hlast'⟩ := hdigit (n % 16) (by omega)
      rw [Nat.toDigits_of_base_le (by decide) (by omega), base16_concat, hvalue, hlast]
      exact ⟨by omega, forall_mem_append.mpr ⟨hmem, forall_mem_singleton.mpr hlast'⟩⟩

theorem base16_zeros (k : Nat) (s : Text) : base16 (replicate k '0' ++ s) = base16 s := by
  induction k with
  | zero => rfl
  | succ k ih => exact ih

/-- Six digits of the lower case with the value of the number. -/
theorem ofNumber_eq (hn : n < 16 ^ 6) :
    (ofNumber n).length = 6 ∧ (∀ c ∈ ofNumber n, c ∈ lowerDigits) ∧ base16 (ofNumber n) = n := by
  obtain ⟨hvalue, hmem⟩ := base16_toDigits n
  have hlength : (Nat.toDigits 16 n).length ≤ 6 := Nat.toDigits_length 16 n 6 (by decide) hn
  change (replicate (6 - (Nat.toDigits 16 n).length) '0' ++ Nat.toDigits 16 n).length = 6 ∧
    (∀ c ∈ replicate (6 - (Nat.toDigits 16 n).length) '0' ++ Nat.toDigits 16 n, c ∈ lowerDigits) ∧
    base16 (replicate (6 - (Nat.toDigits 16 n).length) '0' ++ Nat.toDigits 16 n) = n
  refine ⟨?_, forall_mem_append.mpr ⟨fun c hc => ?_, hmem⟩, (base16_zeros _ _).trans hvalue⟩
  · rw [length_append, length_replicate]
    omega
  · rw [eq_of_mem_replicate hc]
    decide

theorem toNumber_ofNumber (hn : n < 16 ^ 6) : toNumber (ofNumber n) = .ok (n : Int) := by
  obtain ⟨hlength, hmem, hvalue⟩ := ofNumber_eq hn
  rw [toNumber_digits (fun c hc => isHexDigit_of_mem (hmem c hc)) (.inr hlength), sixDigits,
    if_neg (by omega), hvalue]

theorem base16_lt (h : ∀ c ∈ s, isHexDigit c) : base16 s < 16 ^ s.length := by
  induction s using reverseRecOn with
  | nil => decide
  | append_singleton s c ih =>
    have hlt := (digit_of_isHexDigit (h c (mem_append_right _ mem_cons_self))).2.1
    have hs := ih fun d hd => h d (mem_append_left _ hd)
    rw [base16_concat, length_append, length_singleton, Nat.pow_succ]
    omega

theorem ofNumber_base16 (h : ∀ c ∈ s, isHexDigit c) (hlength : s.length = 6) : ofNumber (base16 s) = s.toLower := by
  have hlt : base16 s < 16 ^ 6 := hlength ▸ base16_lt h
  obtain ⟨hsix, hmem, hvalue⟩ := ofNumber_eq hlt
  have hlower : ∀ c ∈ s.toLower, c ∈ lowerDigits := by
    intro c hc
    obtain ⟨d, hd, rfl⟩ := mem_map.mp hc
    exact (digit_of_isHexDigit (h d hd)).2.2.1
  have hsame : base16 (ofNumber (base16 s)) = base16 s.toLower := hvalue.trans (base16_toLower h).symm
  exact (eq_of_foldl_eq hmem hlower (hsix.trans ((length_map _).trans hlength).symm) hsame).2

end Colour
end OutlineMarkup
