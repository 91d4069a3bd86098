import OutlineMarkup.Proofs.Documents
import OutlineMarkup.Proofs.GrammarLines

/-!
# Layout of a grammar

Blank lines, comments, and breaks inside a definition that a backslash announces are a matter of layout:
a grammar with them is read as it is without them, also if it cannot be read.
-/

namespace OutlineMarkup
open List Text Indentation

namespace Text

theorem splitAtChar_ne_nil (s : Text) (c : Char) : s.splitAtChar c ≠ [] := pieces_ne_nil _ s

theorem join_splitAtChar (c : Char) (s : Text) : join [c] (s.splitAtChar c) = s := by
  induction s with
  | nil => rfl
  | cons d s ih =>
    obtain ⟨p, ps, hps⟩ := exists_cons_of_ne_nil (splitAtChar_ne_nil s c)
    rw [splitAtChar] at ih hps
    rw [hps] at ih
    rw [splitAtChar, pieces, hps]
    split
    · rename_i hd
      rw [join_cons_cons, ih, beq_iff_eq.mp hd]
      rfl
    · cases ps <;> simpa [consHead, join] using ih

theorem not_mem_of_mem_splitAtChar {c : Char} {s w : Text} (h : w ∈ s.splitAtChar c) : c ∉ w := by
  induction s generalizing w with
  | nil => simp_all [splitAtChar, pieces]
  | cons d s ih =>
    obtain ⟨p, ps, hps⟩ := exists_cons_of_ne_nil (splitAtChar_ne_nil s c)
    rw [hps] at ih
    rw [splitAtChar] at hps
    rw [splitAtChar, pieces, hps] at h
    split at h
    · rcases mem_cons.mp h with rfl | h
      · exact not_mem_nil
      · exact ih h
    · rename_i hd
      rcases mem_cons.mp h with rfl | h
      · have hne : c ≠ d := fun heq => hd (beq_iff_eq.mpr heq.symm)
        simp [hne, ih mem_cons_self]
      · exact ih (mem_cons_of_mem _ h)

end Text

namespace Grammar

/-! ## Edits -/

/-- A line cut at blanks between two of its words. -/
structure IsCut (x front back : Text) : Prop where
  eq : ∃ gap, x = front ++ gap ++ back ∧ gap ≠ [] ∧ ∀ c ∈ gap, Text.isBlank c = true
  front : front.words ≠ []
  back : back.words ≠ []

/-- The part of a broken line that others follow: blanks and a backslash, which a comment may follow. -/
def broken (front blanks remark : Text) : Text := front ++ blanks ++ '\\' :: remark

/-- The rest of a broken line: it may be indented, broken again, and have lines with nothing but blanks
or a comment before it. -/
inductive Continued : Text → List Text → Prop where
  | skip {x remark : Text} {more : List Text} (hremark : isRemark remark = true) (hmore : Continued x more) :
      Continued x (remark :: more)
  | last {x indent remark : Text} (hindent : ∀ c ∈ indent, Text.isBlank c = true)
      (hremark : isRemark remark = true) : Continued x [indent ++ x ++ remark]
  | cut {x front back indent blanks remark : Text} {more : List Text} (hcut : IsCut x front back)
      (hindent : ∀ c ∈ indent, Text.isBlank c = true) (hblanks : ∀ c ∈ blanks, Text.isBlank c = true)
      (hremark : isRemark remark = true) (hmore : Continued back more) :
      Continued x (broken (indent ++ front) blanks remark :: more)

/-- Lines with changes to their layout: lines with nothing but blanks or a comment between them, comments
behind them, and breaks inside them. -/
inductive Edited : List Text → List Text → Prop where
  | nil : Edited [] []
  | skip {ls more : List Text} {remark : Text} (hremark : isRemark remark = true) (hmore : Edited ls more) :
      Edited ls (remark :: more)
  | line {x remark : Text} {ls more : List Text} (hremark : isRemark remark = true) (hmore : Edited ls more) :
      Edited (x :: ls) ((x ++ remark) :: more)
  | cut {x front back blanks remark : Text} {rest ls more : List Text} (hcut : IsCut x front back)
      (hblanks : ∀ c ∈ blanks, Text.isBlank c = true) (hremark : isRemark remark = true)
      (hrest : Continued back rest) (hmore : Edited ls more) :
      Edited (x :: ls) (broken front blanks remark :: (rest ++ more))

/-! ## Reading edited lines -/

variable {n : Nesting (List Text)} {t : TagTable} {x front back indent blanks remark pending : Text}
  {ls rest : List Text} {c : Char}

theorem IsCut.words (h : IsCut x front back) : x.words = front.words ++ back.words := by
  obtain ⟨gap, rfl, hne, hgap⟩ := h.eq
  exact words_append_blank_append hne hgap front back

theorem IsCut.leading (h : IsCut x front back) : leading x = leading front := by
  obtain ⟨gap, rfl, _, _⟩ := h.eq
  rw [append_assoc, leading_append h.front]

theorem IsCut.not_mem (h : IsCut x front back) (hc : c ∉ x) : c ∉ front ∧ c ∉ back := by
  obtain ⟨gap, rfl, _, _⟩ := h.eq
  simp only [mem_append, not_or] at hc
  exact ⟨hc.1.1, hc.2⟩

theorem not_mem_of_blank {b : Text} (hb : ∀ c ∈ b, isBlank c) (hc : isBlank c = false) : c ∉ b := by
  intro hm
  rw [hb c hm] at hc
  cases hc

theorem readLines_remark (h : isRemark remark) :
    readLines pending n t (remark :: rest) = readLines pending n t rest := by
  apply readLines_skip
  have hcut := withoutComment_append (s := []) not_mem_nil h
  rw [nil_append] at hcut
  rw [hcut]
  rfl

theorem readLines_broken (hhash : '#' ∉ front) (hblanks : ∀ c ∈ blanks, isBlank c)
    (hremark : isRemark remark) : readLines pending n t (broken front blanks remark :: rest) =
      readLines (pending ++ pending.continuing (front ++ blanks)) n t rest := by
  apply readLines_waits
  have hsigns : '#' ∉ front ++ blanks ++ ['\\'] := by
    simp [hhash, not_mem_of_blank hblanks (c := '#') rfl]
  have hcut := withoutComment_append hsigns hremark
  rw [trimRight_append_cons rfl] at hcut
  rw [broken, ← singleton_append, ← append_assoc, hcut]
  rfl

theorem readLines_line (hhash : '#' ∉ x) (hslash : '\\' ∉ x) (hremark : isRemark remark)
    (n : Nesting (List Text)) (t : TagTable) (rest : List Text) : readLines [] n t ((x ++ remark) :: rest) =
      if x.words = [] then readLines [] n t rest else readThen n t x rest := by
  have hcut := withoutComment_append hhash hremark
  split
  · rename_i hwords
    exact readLines_skip (by rwa [hcut, words_trimRight])
  · rename_i hwords
    exact readLines_cut hcut hwords hslash

/-- A line that waits is continued by what is left of it, whatever blanks the two have around them. -/
theorem continuing_spec (hpending : pending.words ≠ []) (y : Text) :
    (pending ++ pending.continuing y).words = pending.words ++ y.words ∧
      leading (pending ++ pending.continuing y) = leading pending := by
  have hcontinuing : pending.continuing y = ' ' :: y.trimLeft := by
    rw [continuing, if_neg]
    simpa using ne_nil_of_words hpending
  rw [hcontinuing, words_append_cons rfl, words_trimLeft]
  exact ⟨rfl, leading_append hpending _⟩

theorem readLines_continued {more : List Text} (h : Continued x more) (hpending : pending.words ≠ [])
    (hx : x.words ≠ []) (hhash : '#' ∉ x) (hslash : '\\' ∉ x)
    (n : Nesting (List Text)) (t : TagTable) (rest : List Text) :
    ∃ line : Text, line.words = pending.words ++ x.words ∧ leading line = leading pending ∧
      readLines pending n t (more ++ rest) = readThen n t line rest := by
  induction h generalizing pending with
  | skip hremark _ ih =>
    rw [cons_append, readLines_remark hremark]
    exact ih hpending hx hhash hslash
  | @last x indent remark hindent hremark =>
    have hsigns : ∀ c, c ∉ x → isBlank c = false → c ∉ indent ++ x := by
      intro c hc hblank
      simp [hc, not_mem_of_blank hindent hblank]
    have hcut := withoutComment_append (hsigns '#' hhash rfl) hremark
    have hwords : (indent ++ x).trimRight.words = x.words := by
      rw [words_trimRight, words_blank_append hindent]
    obtain ⟨hline, hleading⟩ := continuing_spec hpending (indent ++ x).trimRight
    rw [hwords] at hline
    refine ⟨_, hline, hleading, ?_⟩
    rw [singleton_append, readLines_complete, hcut]
    · rwa [hcut, hwords]
    · rw [hcut]
      exact fun hm => hsigns '\\' hslash rfl (mem_of_mem_trimRight hm)
  | @cut x front back indent blanks remark more hcut hindent hblanks hremark _ ih =>
    have hfront : '#' ∉ indent ++ front := by
      simp [(hcut.not_mem hhash).1, not_mem_of_blank hindent (c := '#') rfl]
    obtain ⟨hwaits, hleads⟩ := continuing_spec hpending (indent ++ front ++ blanks)
    rw [words_append_blank hblanks, words_blank_append hindent] at hwaits
    have hne : (pending ++ pending.continuing (indent ++ front ++ blanks)).words ≠ [] := by
      rw [hwaits]
      simp [hpending]
    obtain ⟨line, hline, hleading, hread⟩ := ih hne hcut.back (hcut.not_mem hhash).2 (hcut.not_mem hslash).2
    refine ⟨line, ?_, hleading.trans hleads, ?_⟩
    · rw [hline, hwaits, hcut.words, append_assoc]
    · rw [cons_append, readLines_broken hfront hblanks hremark, hread]

theorem readLines_edited {edited : List Text} (h : Edited ls edited)
    (hls : ∀ x ∈ ls, '#' ∉ x ∧ '\\' ∉ x) (n : Nesting (List Text)) (t : TagTable) :
    readLines [] n t edited = readLines [] n t ls := by
  induction h generalizing n t with
  | nil => rfl
  | skip hremark _ ih => rw [readLines_remark hremark, ih hls]
  | @line x remark ls more hremark _ ih =>
    obtain ⟨hhash, hslash⟩ := hls x mem_cons_self
    have hrest := ih (forall_mem_cons.mp hls).2
    have hplain := readLines_line hhash hslash (isRemark_of_blank (forall_mem_nil _)) n t ls
    rw [append_nil] at hplain
    rw [readLines_line hhash hslash hremark, hplain]
    split
    · exact hrest n t
    · exact readThen_congr rfl rfl hrest
  | @cut x front back blanks remark rest ls more hcut hblanks hremark hrest _ ih =>
    obtain ⟨hhash, hslash⟩ := hls x mem_cons_self
    have hmore := ih (forall_mem_cons.mp hls).2
    have hfront : (front ++ blanks).words = front.words := words_append_blank hblanks front
    have hwords : x.words ≠ [] := by
      rw [hcut.words]
      simp [hcut.front]
    obtain ⟨line, hline, hleading, hread⟩ := readLines_continued hrest (hfront ▸ hcut.front) hcut.back
      (hcut.not_mem hhash).2 (hcut.not_mem hslash).2 n t more
    rw [readLines_broken (hcut.not_mem hhash).1 hblanks hremark, nil_append]
    change readLines (front ++ blanks) n t (rest ++ more) = _
    rw [hread, readLines_plain hwords hhash hslash]
    apply readThen_congr _ _ hmore
    · rw [hline, hfront, hcut.words]
    · rw [hleading, leading_append hcut.front, hcut.leading]

theorem readLines_ended {raws : List Text} (h : Forall₂ IsEnded ls raws) :
    readLines pending n t (raws.filter (!·.isEmpty)) = readLines pending n t ls := by
  induction h generalizing pending n t with
  | nil => rfl
  | @cons x raw ls raws hraw _ ih =>
    obtain ⟨feed, hfeed, rfl⟩ := hraw
    by_cases hempty : x ++ feed = []
    · rw [filter_cons_of_neg (by simp [hempty]), ih, (append_eq_nil_iff.mp hempty).1]
      exact (readLines_skip rfl).symm
    · rw [filter_cons_of_pos (by simpa using hempty)]
      apply readLines_congr
      · rcases hfeed with rfl | rfl
        · rw [append_nil]
        · exact withoutComment_append_feed x
      · intro pending n t
        exact ih

theorem read_join (h : ∀ x ∈ ls, '\n' ∉ x) : read (join ['\n'] ls) = readLines [] {} [] ls := by
  have hlines := lines_sourceText_filter h false
  rw [sourceText, if_neg Bool.false_ne_true] at hlines
  rw [read, hlines, readLines_ended (forall₂_ended ls false)]

/-- A grammar without comments and backslashes is read as any text that it becomes by inserting blank
lines and comment lines, also inside a definition that is continued, by putting comments behind its
lines, and by breaking lines at blanks between words, with backslashes before the breaks and any
indentation behind them. -/
theorem read_edited {source : Text} {edited : List Text} (hhash : '#' ∉ source) (hslash : '\\' ∉ source)
    (hedited : Edited (source.splitAtChar '\n') edited) (hfeed : ∀ x ∈ edited, '\n' ∉ x) :
    read (Text.join ['\n'] edited) = read source := by
  have hsigns : ∀ x ∈ source.splitAtChar '\n', '#' ∉ x ∧ '\\' ∉ x := by
    intro x hx
    have hpart := Text.infix_of_mem_pieces hx
    exact ⟨fun hm => hhash (hpart.subset hm), fun hm => hslash (hpart.subset hm)⟩
  have hlines : ∀ x ∈ source.splitAtChar '\n', '\n' ∉ x := fun x hx => Text.not_mem_of_mem_splitAtChar hx
  calc read (Text.join ['\n'] edited)
      = readLines [] {} [] edited := read_join hfeed
    _ = readLines [] {} [] (source.splitAtChar '\n') := readLines_edited hedited hsigns {} []
    _ = read source := by rw [← read_join hlines, Text.join_splitAtChar]

def plainGrammar : Text := "<a> x, y z\n\t<b>\n"

/-- A definition over three lines, with comments and a blank line. -/
def laidOut : List Text :=
  ["# tags", broken "<a> x," " " " # first", "  ",
    broken ("\t" ++ "y") [] [], "   " ++ "z" ++ "# last",
    "\t<b>" ++ "\t", [] ++ []]

theorem read_edited_sample :
    Edited (plainGrammar.splitAtChar '\n') laidOut ∧
      read (Text.join ['\n'] laidOut) = read plainGrammar := by
  have hfirst : IsCut "<a> x, y z" "<a> x," "y z" :=
    ⟨⟨[' '], by decide, by decide, by decide⟩, by decide, by decide⟩
  have hsecond : IsCut "y z" "y" "z" :=
    ⟨⟨[' '], by decide, by decide, by decide⟩, by decide, by decide⟩
  have hedited : Edited (plainGrammar.splitAtChar '\n') laidOut := by
    have hlines : plainGrammar.splitAtChar '\n' = ["<a> x, y z".toList, "\t<b>".toList, []] := by decide
    rw [hlines]
    exact .skip (by decide) (.cut hfirst (by decide) (by decide)
      (.skip (by decide) (.cut hsecond (by decide) (by decide) (by decide) (.last (by decide) (by decide))))
      (.line (by decide) (.line (by decide) .nil)))
  exact ⟨hedited, read_edited (by decide) (by decide) hedited (by decide)⟩

end Grammar
end OutlineMarkup
