import Mathlib.Data.List.TakeWhile
import OutlineMarkup.Grammar
import OutlineMarkup.Proofs.Texts

/-!
# Lines of a grammar

A line of a grammar is read from its words and its leading blanks alone: what other blanks it has, and
how they are spread over continued lines, makes no difference. Blank lines and comments are skipped
before a line is read.
-/

namespace OutlineMarkup
open List Text Indentation

/-! ## Words -/

namespace Text
variable {s t a b : Text} {c : Char}

/-- Texts joined at a blank have their words one after another. -/
theorem words_append_cons (hc : isBlank c) (a b : Text) : words (a ++ c :: b) = words a ++ words b := by
  rw [words, words, words, pieces_append_separator hc, filter_append]

theorem words_cons (hc : isBlank c) (s : Text) : words (c :: s) = words s := words_append_cons hc [] s

theorem words_of_forall (hne : s ≠ []) (h : ∀ c ∈ s, isBlank c = false) : words s = [s] := by
  rw [words, pieces_of_forall_not h]
  simp [hne]

theorem words_of_blank (h : ∀ c ∈ s, isBlank c) : words s = [] := by
  induction s with
  | nil => rfl
  | cons c s ih =>
    rw [words_cons (h c mem_cons_self)]
    exact ih (forall_mem_cons.mp h).2

theorem words_blank_append (hb : ∀ c ∈ b, isBlank c) (s : Text) : words (b ++ s) = words s := by
  induction b with
  | nil => rfl
  | cons c b ih =>
    rw [cons_append, words_cons (hb c mem_cons_self)]
    exact ih (forall_mem_cons.mp hb).2

theorem words_append_blank (hb : ∀ c ∈ b, isBlank c) (s : Text) : words (s ++ b) = words s := by
  cases b with
  | nil => rw [append_nil]
  | cons c b =>
    rw [words_append_cons (hb c mem_cons_self), words_of_blank (forall_mem_cons.mp hb).2, append_nil]

theorem words_append_blank_append (hne : b ≠ []) (hb : ∀ c ∈ b, isBlank c) (s t : Text) :
    words (s ++ b ++ t) = words s ++ words t := by
  obtain ⟨c, b, rfl⟩ := exists_cons_of_ne_nil hne
  rw [append_assoc, cons_append, words_append_cons (hb c mem_cons_self),
    words_blank_append (forall_mem_cons.mp hb).2]

theorem words_eq_nil_iff : words s = [] ↔ ∀ c ∈ s, isBlank c := by
  refine ⟨fun h c hc => ?_, words_of_blank⟩
  by_contra hblank
  -- The word around a character that is not blank would be one of the words.
  obtain ⟨a, b, rfl⟩ := append_of_mem hc
  have hword : ∀ a b : Text, words (a ++ c :: b) ≠ [] := by
    intro a b
    induction a with
    | nil =>
      rw [nil_append, words, pieces, if_neg hblank]
      cases pieces isBlank b <;> simp [consHead]
    | cons d a ih =>
      cases hd : isBlank d with
      | true =>
        rw [cons_append, words_cons hd]
        exact ih
      | false =>
        rw [cons_append, words, pieces, hd]
        cases pieces isBlank (a ++ c :: b) <;> simp [consHead]
  exact hword a b h

theorem ne_nil_of_words (h : words s ≠ []) : s ≠ [] := by
  rintro rfl
  exact h rfl

/-! ### Trimming keeps words -/

theorem words_trimLeft (s : Text) : words s.trimLeft = words s := by
  conv_rhs => rw [← takeWhile_append_dropWhile (p := isBlank) (l := s)]
  rw [words_blank_append fun c hc => mem_takeWhile_imp hc]
  rfl

theorem exists_trimRight_append (s : Text) : ∃ b, (∀ c ∈ b, isBlank c) ∧ s = s.trimRight ++ b := by
  refine ⟨(s.reverse.takeWhile isBlank).reverse, fun c hc => mem_takeWhile_imp (mem_reverse.mp hc), ?_⟩
  rw [trimRight, dropRightWhile, ← reverse_append, takeWhile_append_dropWhile, reverse_reverse]

theorem words_trimRight (s : Text) : words s.trimRight = words s := by
  obtain ⟨b, hb, hs⟩ := exists_trimRight_append s
  conv_rhs => rw [hs, words_append_blank hb]

theorem words_trim (s : Text) : words s.trim = words s := by rw [trim, words_trimRight, words_trimLeft]

theorem trimLeft_of_blank (h : ∀ c ∈ s, isBlank c) : s.trimLeft = [] := by
  have hdrop : (s ++ []).dropWhile isBlank = [] := dropWhile_append_of_pos h
  rwa [append_nil] at hdrop

theorem trim_eq_nil_iff : s.trim = [] ↔ words s = [] := by
  constructor
  · intro h
    rw [← words_trim, h]
    rfl
  · intro h
    rw [trim, trimLeft_of_blank (words_eq_nil_iff.mp h)]
    rfl

end Text

/-! ## Leading blanks -/

namespace Indentation
variable {x y : Text}

theorem leading_append (h : x.words ≠ []) (y : Text) : leading (x ++ y) = leading x := by
  rw [leading, leading, takeWhile_append, if_neg]
  intro hlength
  have hinit : x.takeWhile isBlank <+: x := takeWhile_prefix _
  have hall : x.takeWhile isBlank = x := hinit.eq_of_length hlength
  exact h (words_of_blank (takeWhile_eq_self_iff.mp hall))

theorem leading_trimRight (h : x.words ≠ []) : leading x.trimRight = leading x := by
  obtain ⟨b, _, hx⟩ := exists_trimRight_append x
  conv_rhs => rw [hx, leading_append (by rwa [words_trimRight])]

theorem depth_congr (t : Indentation) (hx : x ≠ []) (hy : y ≠ []) (h : leading x = leading y) :
    t.depth x = t.depth y := by
  obtain ⟨c, x, rfl⟩ := exists_cons_of_ne_nil hx
  obtain ⟨d, y, rfl⟩ := exists_cons_of_ne_nil hy
  have hmark : (c == '\t' || c == ' ') = (d == '\t' || d == ' ') := by
    have hplain : ∀ e : Char, isBlank e = false → (e == '\t' || e == ' ') = false := by
      intro e he
      simp only [isBlank, Bool.or_eq_false_iff] at he
      simp [he]
    cases hc : isBlank c <;> cases hd : isBlank d <;>
      simp only [leading, takeWhile_cons, hc, hd, if_true, Bool.false_eq_true, if_false, reduceCtorEq,
        cons.injEq] at h
    · rw [hplain c hc, hplain d hd]
    · rw [h.1]
  simp [depth, hmark, h]

end Indentation

/-! ## Reading a line -/

namespace Grammar
variable {n : Nesting (List Text)} {t : TagTable} {x y pending raw s : Text} {rest rest' : List Text}

def cutAtCommas (w : Text) : List Text := (w.trimOf (· == ',')).splitAtChar ','

theorem entries_eq (line : Text) : entries line = line.words.flatMap cutAtCommas := by
  rw [entries, words_trim]
  rfl

theorem readLine_congr (hwords : x.words = y.words) (hleading : leading x = leading y) :
    readLine n x = readLine n y := by
  rw [readLine, readLine, entries_eq, entries_eq, ← hwords]
  cases hentries : x.words.flatMap cutAtCommas with
  | nil => rfl
  | cons tag attributes =>
    have hne : x.words ≠ [] := by
      intro hnil
      rw [hnil] at hentries
      cases hentries
    have hdepth := n.indentation.depth_congr (ne_nil_of_words hne)
      (ne_nil_of_words (hwords ▸ hne)) hleading
    simp [Nesting.enter, hdepth]

def readThen (n : Nesting (List Text)) (t : TagTable) (line : Text) (rest : List Text) :
    Except Fault TagTable :=
  match readLine n line with
  | (.error f, _) => .error f
  | (.ok d, n) =>
    match define t d with
    | .error f => .error f
    | .ok t => readLines [] n t rest

theorem readThen_congr (hwords : x.words = y.words) (hleading : leading x = leading y)
    (hrest : ∀ n t, readLines [] n t rest = readLines [] n t rest') :
    readThen n t x rest = readThen n t y rest' := by
  simp [readThen, readLine_congr hwords hleading, hrest]

/-! ## Comments -/

/-- Nothing but blanks, with a comment behind them or not. -/
def isRemark (s : Text) : Bool :=
  match s.trimLeft with
  | [] => true
  | c :: _ => c == '#'

theorem isRemark_iff (s : Text) : isRemark s ↔ ∃ blanks comment : Text, s = blanks ++ comment ∧
    (∀ c ∈ blanks, isBlank c) ∧ (comment = [] ∨ comment.head? = some '#') := by
  constructor
  · intro h
    refine ⟨s.takeWhile isBlank, s.trimLeft, takeWhile_append_dropWhile.symm,
      fun c hc => mem_takeWhile_imp hc, ?_⟩
    rw [isRemark] at h
    split at h
    · exact Or.inl ‹_›
    · rename_i heq
      rw [heq, head?_cons, beq_iff_eq.mp h]
      exact Or.inr rfl
  · rintro ⟨blanks, comment, rfl, hb, hcomment⟩
    rw [isRemark, trimLeft, dropWhile_append_of_pos hb]
    rcases hcomment with rfl | hcomment
    · rfl
    · obtain ⟨r, rfl⟩ := head?_eq_some_iff.mp hcomment
      rfl

theorem isRemark_of_blank (h : ∀ c ∈ s, isBlank c) : isRemark s :=
  (isRemark_iff s).mpr ⟨s, [], (append_nil s).symm, h, Or.inl rfl⟩

theorem withoutComment_of_not_mem (h : '#' ∉ s) : withoutComment s = s.trimRight := by
  rw [withoutComment, before_eq_self (has_eq_false_of_not_mem (c := '#') (by simp) h)]

theorem withoutComment_append_cons (h : '#' ∉ s) (comment : Text) :
    withoutComment (s ++ '#' :: comment) = s.trimRight := by
  rw [withoutComment]
  exact congrArg trimRight (before_append_cons h)

theorem withoutComment_append {remark : Text} (h : '#' ∉ s) (hremark : isRemark remark) :
    withoutComment (s ++ remark) = s.trimRight := by
  obtain ⟨b, comment, rfl, hb, hcomment⟩ := (isRemark_iff remark).mp hremark
  have hhash : '#' ∉ s ++ b := by
    rw [mem_append, not_or]
    exact ⟨h, fun hm => absurd (hb _ hm) (by decide)⟩
  rw [← append_assoc]
  rcases hcomment with rfl | hcomment
  · rw [append_nil, withoutComment_of_not_mem hhash, trimRight_append_blank hb]
  · obtain ⟨r, rfl⟩ := head?_eq_some_iff.mp hcomment
    rw [withoutComment_append_cons hhash, trimRight_append_blank hb]

theorem withoutComment_append_feed (s : Text) : withoutComment (s ++ ['\n']) = withoutComment s := by
  by_cases h : '#' ∈ s
  · obtain ⟨a, b, rfl, ha⟩ := eq_append_cons_of_mem h
    rw [append_assoc, cons_append, withoutComment_append_cons ha, withoutComment_append_cons ha]
  · rw [withoutComment_append h (isRemark_of_blank (by simp [isBlank])), withoutComment_of_not_mem h]

/-! ## Reading lines in turn -/

theorem readLines_skip (h : (withoutComment raw).words = []) :
    readLines pending n t (raw :: rest) = readLines pending n t rest := by
  have hempty : (withoutComment raw).trim.isEmpty := isEmpty_iff.mpr (trim_eq_nil_iff.mpr h)
  rw [readLines]
  simp [hempty]

theorem readLines_cons (h : (withoutComment raw).words ≠ []) : readLines pending n t (raw :: rest) =
      if (pending.continuing (withoutComment raw)).getLast? == some '\\' then
        readLines (pending ++ (pending.continuing (withoutComment raw)).dropLast) n t rest
      else readThen n t (pending ++ pending.continuing (withoutComment raw)) rest := by
  have hempty : (withoutComment raw).trim.isEmpty = false :=
    isEmpty_eq_false_iff.mpr fun hnil => h (trim_eq_nil_iff.mp hnil)
  rw [readLines]
  simp only [hempty, Bool.false_eq_true, if_false]
  rfl

/-- A line that does not end in a backslash completes a definition. -/
theorem readLines_complete (h : (withoutComment raw).words ≠ []) (hslash : '\\' ∉ withoutComment raw) :
    readLines pending n t (raw :: rest) =
      readThen n t (pending ++ pending.continuing (withoutComment raw)) rest := by
  have hmem : '\\' ∉ pending.continuing (withoutComment raw) := by
    rw [continuing]
    split
    · exact hslash
    · rw [mem_cons, not_or]
      exact ⟨by decide, fun hm => hslash (mem_of_mem_trimLeft hm)⟩
  rw [readLines_cons h, if_neg]
  rw [beq_iff_eq]
  exact fun hlast => hmem (mem_of_mem_getLast? hlast)

/-- A line with a backslash behind it waits for the next one. -/
theorem readLines_waits (hraw : withoutComment raw = x ++ ['\\']) :
    readLines pending n t (raw :: rest) = readLines (pending ++ pending.continuing x) n t rest := by
  have hwords : (withoutComment raw).words ≠ [] := by
    rw [hraw]
    intro hnil
    exact absurd (words_eq_nil_iff.mp hnil '\\' (by simp)) (by decide)
  rw [readLines_cons hwords, hraw, continuing_append_cons rfl, getLast?_concat, dropLast_concat]
  rfl

theorem readLines_cut (hcut : withoutComment raw = x.trimRight) (hwords : x.words ≠ []) (hslash : '\\' ∉ x) :
    readLines [] n t (raw :: rest) = readThen n t x rest := by
  rw [readLines_complete (by rwa [hcut, words_trimRight])
    (by rw [hcut]; exact fun hm => hslash (mem_of_mem_trimRight hm)), hcut]
  exact readThen_congr (words_trimRight x) (leading_trimRight hwords) fun _ _ => rfl

theorem readLines_plain (hwords : raw.words ≠ []) (hhash : '#' ∉ raw) (hslash : '\\' ∉ raw) :
    readLines [] n t (raw :: rest) = readThen n t raw rest :=
  readLines_cut (withoutComment_of_not_mem hhash) hwords hslash

theorem readLines_congr {raw' : Text} (h : withoutComment raw = withoutComment raw')
    (hrest : ∀ pending n t, readLines pending n t rest = readLines pending n t rest') :
    readLines pending n t (raw :: rest) = readLines pending n t (raw' :: rest') := by
  by_cases hwords : (withoutComment raw).words = []
  · rw [readLines_skip hwords, readLines_skip (h ▸ hwords), hrest]
  · rw [readLines_cons hwords, readLines_cons (h ▸ hwords), h, hrest]
    congr 1
    exact readThen_congr rfl rfl (hrest [])

end Grammar
end OutlineMarkup
