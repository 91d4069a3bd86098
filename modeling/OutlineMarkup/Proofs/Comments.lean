import OutlineMarkup.Proofs.Units

/-!
# Comments and blank lines

Blank lines and comments are skipped, but their depth is found first, and the first line of a file
that starts with a space or a tab sets the unit of indentation, whatever it is.
-/

namespace OutlineMarkup
open List Compile Action Indentation
variable {x : Text}

namespace Indentation

def isIndented (line : Text) : Bool := line.head? == some '\t' || line.head? == some ' '

/-- The leading blanks of the first indented line. -/
def first? (lines : List Text) : Option Text := (lines.find? isIndented).map leading

def depthIn (w line : Text) : Nat := if isIndented line then (leading line).length / w.length else 0

theorem first?_cons_of_pos (h : isIndented x) (xs : List Text) : first? (x :: xs) = some (leading x) := by
  rw [first?, find?_cons_of_pos h, Option.map_some]

theorem first?_cons_of_neg (h : isIndented x = false) (xs : List Text) : first? (x :: xs) = first? xs := by
  rw [first?, find?_cons_of_neg (by simp [h]), first?]

theorem first?_filter (xs : List Text) : first? (xs.filter (!·.isEmpty)) = first? xs := by
  induction xs with
  | nil => rfl
  | cons x xs ih =>
    cases x with
    | nil => rw [filter_cons_of_neg (by simp), ih, first?_cons_of_neg rfl]
    | cons c r =>
      rw [filter_cons_of_pos (by simp)]
      cases h : isIndented (c :: r) with
      | true => rw [first?_cons_of_pos h, first?_cons_of_pos h]
      | false => rw [first?_cons_of_neg h, first?_cons_of_neg h, ih]

theorem indents_leading (h : isIndented x) : Indents (leading x) := by
  cases x with
  | nil => cases h
  | cons c r =>
    have hc : c = '\t' ∨ c = ' ' := by simpa [isIndented] using h
    have hblank : Text.isBlank c := by rcases hc with rfl | rfl <;> rfl
    refine ⟨?_, fun d hd => mem_takeWhile_imp hd⟩
    rw [leading, takeWhile_cons_of_pos hblank]
    rcases hc with rfl | rfl
    · exact .inr rfl
    · exact .inl rfl

theorem indents_first {xs : List Text} {w : Text} (h : first? xs = some w) : Indents w := by
  obtain ⟨x, hx, rfl⟩ := Option.map_eq_some_iff.mp h
  exact indents_leading (find?_some hx)

theorem exists_first {xs : List Text} (hx : x ∈ xs) (h : isIndented x) : ∃ w, first? xs = some w := by
  have hsome : (xs.find? isIndented).isSome := find?_isSome.mpr ⟨x, hx, h⟩
  obtain ⟨y, hy⟩ := Option.isSome_iff_exists.mp hsome
  exact ⟨leading y, by rw [first?, hy, Option.map_some]⟩

end Indentation

open Indentation

namespace Session
variable {tags : TagTable} {w x : Text} {xs : List Text} {s : Session}

/-- The unit is `w`, or the lines that follow set no other one. -/
def Fits (w : Text) (xs : List Text) (s : Session) : Prop :=
  s.indentation.unit = some w ∨ s.indentation.unit = none ∧ ∀ v ∈ first? xs, v = w

theorem Fits.leading (h : s.Fits w (x :: xs)) (hx : isIndented x) :
    s.indentation.unit = some w ∨ s.indentation.unit = none ∧ leading x = w := by
  refine h.imp_right fun h => ⟨h.1, h.2 _ ?_⟩
  rw [first?_cons_of_pos hx]
  rfl

theorem Fits.learn (h : s.Fits w (x :: xs)) (hw : w ≠ []) : (s.learn w (depthIn w x)).Fits w xs := by
  cases hx : isIndented x with
  | false =>
    rw [depthIn, hx]
    refine h.imp_right fun h => ⟨h.1, ?_⟩
    rw [← first?_cons_of_neg hx xs]
    exact h.2
  | true =>
    rcases h.leading hx with hunit | ⟨_, rfl⟩
    · rw [learn_of_unit hunit]
      exact .inl hunit
    · rw [depthIn, hx, if_pos rfl, Nat.div_self (length_pos_of_ne_nil hw)]
      exact .inl rfl

theorem Idle.learn (h : s.Idle tags w) (d : Nat) : (s.learn w d).Idle tags w := by
  refine ⟨h.table, h.block, h.verbatims, h.loops, h.defining, ?_, h.regular, h.known⟩
  rcases learn_unit (s := s) (u := w) (k := d) with hunit | rfl
  · exact .inl hunit
  · exact h.unit

end Session

namespace Compile
variable {handle : Handler} {tags : TagTable} {u w x tag e : Text} {xs : List Text}
  {k : Nat} {s : Session}

theorem depthOf_fits (hs : s.Fits w (x :: xs)) (hw : w ≠ []) (hx : x ≠ []) :
    (depthOf x).runFrom s = (.ok (depthIn w x), s.learn w (depthIn w x)) := by
  obtain ⟨c, r, rfl⟩ := exists_cons_of_ne_nil hx
  have hdepth : s.indentation.depth (c :: r) =
      .ok (depthIn w (c :: r), (s.learn w (depthIn w (c :: r))).indentation) := by
    cases hc : isIndented (c :: r) with
    | false =>
      have hblank : (c == '\t' || c == ' ') = false := by simpa [isIndented] using hc
      simp only [depth, hblank, depthIn, hc, Bool.false_eq_true, if_false]
      rfl
    | true =>
      have hblank : (c == '\t' || c == ' ') := by simpa [isIndented] using hc
      rcases hs.leading hc with hunit | ⟨hunit, rfl⟩
      · rw [Session.learn_of_unit hunit]
        simp [depth, hblank, hunit, depthIn, hc]
      · have hone : (leading (c :: r)).length / (leading (c :: r)).length = 1 :=
          Nat.div_self (length_pos_of_ne_nil hw)
        simp only [depth, hblank, hunit, depthIn, hc, if_true, hone]
        rfl
  rw [depthOf, runFrom_bind_ok (runFrom_get s), hdepth]
  rfl

/-- A blank line or a comment may set the unit, and does nothing else. -/
theorem line_skipped (hs : s.Fits w (x :: xs)) (hw : w ≠ []) (hx : x ≠ []) (hblock : s.block = none)
    (hverbatims : s.verbatims = []) (hskipped : x.trim = [] ∨ x.trim.head? = some '#') :
    (line handle x).runFrom s = (.ok (), s.learn w (depthIn w x)) := by
  have hblock : (s.learn w (depthIn w x)).block = none := hblock
  have hverbatims : (s.learn w (depthIn w x)).verbatims = [] := hverbatims
  have htest : (x.trim.isEmpty || x.trim.head? == some '#') := by
    simpa [List.isEmpty_iff] using hskipped
  simp [line, runFrom_bind, depthOf_fits hs hw hx, blanks_run Session.learn_unit, hblock, hverbatims, Table.has, Table.get?, htest]

theorem isIndented_sourceLine (hu : isUnit u) : isIndented (sourceLine u (k + 1) tag e) := by
  obtain ⟨d, v, rfl⟩ := exists_cons_of_ne_nil ((isUnit_iff u).mp hu).1
  rcases ((isUnit_iff _).mp hu).2 d mem_cons_self with rfl | rfl <;>
    simp [isIndented, sourceLine, Text.times_succ]

theorem depthIn_sourceLine (hu : isUnit u) (htag : Text.Solid tag) :
    depthIn w (sourceLine u k tag e) = k * u.length / w.length := by
  obtain ⟨c, hc, hblank⟩ := htag.head
  obtain ⟨r, rfl⟩ := head?_eq_some_iff.mp hc
  cases k with
  | zero =>
    have hspace : isIndented (sourceLine u 0 (c :: r) e) = false := by
      simp only [isIndented, sourceLine, Text.times_zero, nil_append, cons_append, head?_cons,
        Bool.or_eq_false_iff, beq_eq_false_iff_ne]
      constructor <;> rintro ⟨⟩ <;> cases hblank
    rw [depthIn, hspace, Nat.zero_mul, Nat.zero_div]
    rfl
  | succ k =>
    have hleading : leading (sourceLine u (k + 1) (c :: r) e) = u.times (k + 1) :=
      leading_times (indents_of_isUnit hu) rfl hblank _
    rw [depthIn, isIndented_sourceLine hu, if_pos rfl, hleading, Text.length_times]

theorem line_rescaled (handle : Handler) {m : Markup Text} (h : Spells tag m)
    (hm : m.isPlain) (hu : isUnit u) (hw : Indents w) (he : LineEnd e) (hs : s.Idle tags w)
    (hmethods : s.methods = []) (hfits : s.Fits w (sourceLine u k tag e :: xs)) :
    Follows ((line handle (sourceLine u k tag e)).runFrom s) (s.learn w (k * u.length / w.length))
      (s.page.put tags w (k * u.length / w.length) m) := by
  have hcalm := h.calm
  have hne : sourceLine u k tag e ≠ [] := by
    simp [sourceLine, hcalm.solid.ne_nil]
  have hdepth := depthOf_fits hfits hw.ne_nil hne
  rw [depthIn_sourceLine hu hcalm.solid] at hdepth
  have htrim := hcalm.trim_sourceLine (k := k) hu he
  have hline : (line handle (sourceLine u k tag e)).runFrom s =
      (plainLine handle (k * u.length / w.length) (w.times (k * u.length / w.length))
        (sourceLine u k tag e)).runFrom (s.learn w (k * u.length / w.length)) := by
    refine line_at hdepth (blanks_run Session.learn_unit) hs.block ?_ ?_ ?_ (hcalm.expand_sourceLine hu he)
    · have hverbatims : (s.learn w (k * u.length / w.length)).verbatims = [] := hs.verbatims
      rw [hverbatims]
      rfl
    · rw [htrim]
      exact hcalm.solid.ne_nil
    · rw [htrim]
      exact hcalm.head?_ne rfl (by decide)
  have hput := markupLine_put handle h hm hw hs.defining (hs.knowsUnit (k := k * u.length / w.length)) hs.known
    (fun name _ => by rw [hmethods]; rfl)
  rw [hs.table] at hput
  rw [hline, plainLine_calm (s := s.learn w (k * u.length / w.length)) hcalm hu he hs.loops hs.defining]
  exact hput

end Compile

/-! ## Documents with comments -/

/-- A blank line or a comment, which does not go on on the next line. -/
def isSkipped (l : Text) : Bool :=
  !l.hasChar '\n' && (l.trim.isEmpty || l.trim.head? == some '#') && l.trimRight.getLast? != some '\\'

/-- A line that is skipped, or markup at a depth. -/
inductive DocumentLine where
  | skipped (line : Text)
  | markup (depth : Nat) (m : Markup Text)

namespace DocumentLine

def text (u : Text) : DocumentLine → Text
  | skipped l => l
  | markup k m => u.times k ++ m.written

def placed? : DocumentLine → Option (Nat × Markup Text)
  | skipped _ => none
  | markup k m => some (k, m)

def isPlain : DocumentLine → Bool
  | skipped l => isSkipped l
  | markup _ m => m.isPlain && isUnreserved m.written

def outline (ls : List DocumentLine) : Outline := ls.filterMap placed?

variable {u w x : Text} {tags : TagTable} {ls : List DocumentLine} {xs : List Text} {handle : Handler}

theorem isPlain_outline (h : ls.all isPlain) : (outline ls).isPlain := by
  rw [Outline.isPlain, all_eq_true]
  intro y hy
  obtain ⟨r, hr, hplaced⟩ := mem_filterMap.mp hy
  have hplain := all_eq_true.mp h r hr
  cases r with
  | skipped l => cases hplaced
  | markup k m =>
    cases hplaced
    exact hplain

theorem isSkipped_iff (l : Text) : isSkipped l ↔
    '\n' ∉ l ∧ (l.trim = [] ∨ l.trim.head? = some '#') ∧ l.trimRight.getLast? ≠ some '\\' := by
  simp [isSkipped, Text.hasChar_eq_false_iff, and_assoc]

theorem signs (hu : isUnit u) (h : ls.all isPlain) :
    ∀ l ∈ ls.map (text u), '\n' ∉ l ∧ l.trimRight.getLast? ≠ some '\\' := by
  intro l hl
  obtain ⟨r, hr, rfl⟩ := mem_map.mp hl
  have hplain := all_eq_true.mp h r hr
  cases r with
  | skipped l =>
    obtain ⟨hnl, _, hlast⟩ := (isSkipped_iff l).mp hplain
    exact ⟨hnl, hlast⟩
  | markup k m =>
    have hplain : (m.isPlain && isUnreserved m.written) := hplain
    rw [Bool.and_eq_true] at hplain
    obtain ⟨_, hnl, hslash⟩ := (Markup.spells_written hplain.1 hplain.2).calm.line_signs (k := k) hu
    exact ⟨hnl, last_ne_backslash hslash⟩

/-- Where no line sets another unit than `w`, the lines of a document do what its outline does where it
is read with the unit `w`. -/
theorem ends_lines (hu : isUnit u) (hw : Indents w) (hls : ls.all isPlain)
    (hxs : Forall₂ (fun r x => IsEnded (r.text u) x) ls xs) {s : Session} (hi : s.Idle tags w)
    (hmethods : s.methods = []) (hfits : s.Fits w xs) :
    Ends tags w (fun st => st.methods = []) ((xs.filter (!·.isEmpty)).forM (line handle)) s
      (s.page.follow tags w ((outline ls).rescaled u w).trace) := by
  induction hxs generalizing s with
  | nil => exact ⟨s, rfl, rfl, hi, hmethods, id⟩
  | @cons r x ls xs hx hxs ih =>
    rw [all_cons, Bool.and_eq_true] at hls
    obtain ⟨e, he, rfl⟩ := hx
    have hrest := hfits.learn hw.ne_nil
    cases r with
    | skipped l =>
      change Session.Fits w ((l ++ e) :: xs) s at hfits
      change (s.learn w (depthIn w (l ++ e))).Fits w xs at hrest
      change Ends tags w _ (forM (((l ++ e) :: xs).filter (!·.isEmpty)) _) s _
      by_cases hne : l ++ e = []
      · rw [hne] at hrest ⊢
        rw [filter_cons_of_neg (by simp)]
        exact ih hls.2 hi hmethods hrest
      · have hskipped := (isSkipped_iff l).mp hls.1
        rw [← Text.trim_append_blank he.isBlank] at hskipped
        have hline : (line handle (l ++ e)).runFrom s = (.ok (), s.learn w (depthIn w (l ++ e))) :=
          line_skipped hfits hw.ne_nil hne hi.block hi.verbatims hskipped.2.1
        rw [filter_cons_of_pos (by simpa using hne)]
        exact (ih hls.2 (hi.learn _) hmethods hrest).of_run (runFrom_forM_cons_ok hline _)
          Session.keepsUnit_learn fun _ h => h
    | markup k m =>
      obtain ⟨hplain, hun⟩ : m.isPlain ∧ isUnreserved m.written := by
        rw [← Bool.and_eq_true]
        exact hls.1
      have hspells := Markup.spells_written hplain hun
      have hx : text u (.markup k m) ++ e = sourceLine u k m.written e := append_assoc _ _ _
      rw [hx] at hfits hrest ⊢
      rw [depthIn_sourceLine hu hspells.calm.solid] at hrest
      have hline := line_rescaled handle hspells hplain hu hw he hi hmethods hfits
      have hne : sourceLine u k m.written e ≠ [] := by simp [sourceLine, hspells.calm.solid.ne_nil]
      rw [filter_cons_of_pos (by simpa using hne)]
      change Ends tags w _ _ s (s.page.put tags w (k * u.length / w.length) m >>=
        Page.follow tags w ((outline ls).rescaled u w).trace)
      cases hput : s.page.put tags w (k * u.length / w.length) m with
      | error f =>
        rw [hput] at hline
        change (runFrom _ s).1 = .error f
        rw [runFrom_forM_cons]
        rcases hrun : (line handle (sourceLine u k m.written e)).runFrom s with ⟨r, t⟩
        rw [hrun] at hline
        obtain rfl : r = .error f := hline
        rfl
      | ok p =>
        rw [hput] at hline
        obtain ⟨hregular, hroom⟩ := Page.step_ok (x := (k * u.length / w.length, some m)) hput
        have hknown : p.Known s.tags := by
          have h := hi.known
          rw [hi.table] at h ⊢
          exact h.put hw hplain hput
        exact (ih hls.2 (hi.learn_withPage hregular hknown hroom) hmethods hrest).of_run
          (runFrom_forM_cons_ok hline _) Session.keepsUnit_learn fun _ h => h

end DocumentLine

open DocumentLine (text isPlain outline signs)

namespace Document
variable {tags : TagTable} {files : Files} {path u w : Text} {ls : List DocumentLine} {terminated : Bool}

/-- A document with comments comes to what its outline comes to with the unit that is set first. -/
theorem compile_commented (tags : TagTable)
    (hread : HasFile files path (sourceText (ls.map (text u)) terminated))
    (hu : isUnit u) (hls : ls.all isPlain) (hw : Indents w)
    (hfirst : ∀ v ∈ first? (sourceText (ls.map (text u)) terminated).lines, v = w) :
    Renders tags w files path (({} : Page).follow tags w ((outline ls).rescaled u w).trace) := by
  obtain ⟨n, _, hn⟩ := handle_eq tags hread
  have hsigns := signs hu hls
  rw [lines_sourceText_filter fun l hl => (hsigns l hl).1, first?_filter] at hfirst
  have hends : Ends tags w (fun st => st.methods = [])
      (((ended (ls.map (text u)) terminated).filter (!·.isEmpty)).forM (handle tags files path))
      (start tags files path)
      (({} : Page).follow tags w ((outline ls).rescaled u w).trace) := by
    rw [hn]
    exact DocumentLine.ends_lines hu hw hls (forall₂_map_left_iff.mp (forall₂_ended _ terminated))
      (idle_start w) rfl (.inr ⟨rfl, hfirst⟩)
  exact compile_of_ends hw hread (by rw [source_lines_filter hsigns]) hends

theorem exists_first_of_deep (hu : isUnit u) (hls : ls.all isPlain)
    (hdeep : ∃ x ∈ outline ls, x.1 ≠ 0) (terminated : Bool) :
    ∃ v, first? (sourceText (ls.map (text u)) terminated).lines = some v := by
  obtain ⟨x, hx, hdepth⟩ := hdeep
  obtain ⟨r, hr, hplaced⟩ := mem_filterMap.mp hx
  cases r with
  | skipped l => cases hplaced
  | markup k m =>
    cases hplaced
    obtain ⟨j, rfl⟩ := Nat.exists_eq_succ_of_ne_zero hdepth
    have hline : text u (.markup (j + 1) m) ∈ ls.map (text u) := mem_map_of_mem hr
    obtain ⟨y, hy, e, _, rfl⟩ := exists_of_forall₂
      (forall₂_ended (ls.map (text u)) terminated).flip hline
    have hindented : isIndented (text u (.markup (j + 1) m) ++ e) := by
      rw [text, append_assoc]
      exact isIndented_sourceLine hu
    rw [lines_sourceText_filter fun l hl => (signs hu hls l hl).1, first?_filter]
    exact exists_first hy hindented

/-- Comments and blank lines between the lines of a document change nothing if and only if no line is
indented or the first line that starts with a space or a tab starts with the unit of the document. -/
theorem compile_commented_eq_iff (tags : TagTable) (u : Text) (ls : List DocumentLine) (terminated terminated' : Bool)
    (files files' : Files) (path path' : Text)
    (hread : HasFile files path (sourceText (ls.map (DocumentLine.text u)) terminated))
    (hread' : HasFile files' path' (sourceText ((DocumentLine.outline ls).lines u) terminated'))
    (hu : isUnit u = true) (hls : ls.all DocumentLine.isPlain = true)
    (hw : WellIndented (DocumentLine.outline ls).depths) (ha : (DocumentLine.outline ls).isAllowed tags = true) :
    (compile tags files' path').fault = none ∧
      ((compile tags files path).Writes (compile tags files' path').output ↔
        (∀ x ∈ DocumentLine.outline ls, x.1 = 0) ∨
          Indentation.first? (sourceText (ls.map (DocumentLine.text u)) terminated).lines = some u) := by
  have hplain := DocumentLine.isPlain_outline hls
  have hnone := (compile_eq_printing tags hu hread' hplain hw ha).1
  have hdocument := compile_outline tags hu hread' hplain hw
  refine ⟨hnone, ?_⟩
  cases hp : ({} : Page).follow tags u (DocumentLine.outline ls).trace with
  | error f =>
    rw [hp] at hdocument
    obtain ⟨g, hg⟩ := hdocument
    rw [hnone] at hg
    cases hg
  | ok p =>
    rw [hp] at hdocument
    rw [hdocument.2]
    constructor
    · rintro ⟨hfault, houtput⟩
      by_contra hnot
      rw [not_or] at hnot
      obtain ⟨hdeep, hother⟩ := hnot
      have hdeep : ∃ x ∈ DocumentLine.outline ls, x.1 ≠ 0 := by
        simpa only [not_forall, exists_prop] using hdeep
      obtain ⟨w, hfirst⟩ := exists_first_of_deep hu hls hdeep terminated
      have hne : w ≠ u := by
        rintro rfl
        exact hother hfirst
      have hrun := compile_commented tags hread hu hls (Indentation.indents_first hfirst) (by simp [hfirst])
      cases hq : ({} : Page).follow tags w ((DocumentLine.outline ls).rescaled u w).trace with
      | error f =>
        rw [hq] at hrun
        obtain ⟨g, hg⟩ := hrun
        rw [hfault] at hg
        cases hg
      | ok q =>
        rw [hq] at hrun
        exact Page.output_rescaled_ne hu hne hplain hw hdeep hp hq (hrun.2.symm.trans houtput)
    · intro h
      -- The unit that is set first, or any other if none is.
      obtain ⟨w, hw', hfirst, hsame⟩ : ∃ w, Indents w ∧
          (∀ v ∈ Indentation.first? (sourceText (ls.map (DocumentLine.text u)) terminated).lines, v = w) ∧
          ((∀ x ∈ DocumentLine.outline ls, x.1 = 0) ∨ w = u) := by
        cases hfirst : Indentation.first? (sourceText (ls.map (DocumentLine.text u)) terminated).lines with
        | none => exact ⟨u, indents_of_isUnit hu, by simp, Or.inr rfl⟩
        | some v =>
          refine ⟨v, Indentation.indents_first hfirst, by simp, h.imp_right fun h => ?_⟩
          rw [hfirst] at h
          exact Option.some.inj h
      have hrun := compile_commented tags hread hu hls hw' hfirst
      rcases hsame with hzero | rfl
      · rw [Outline.rescaled_of_zero u w hzero, Page.follow_unit (w := u) rfl hzero, hp] at hrun
        exact ⟨hrun.1, hrun.2.trans (Page.output_unit (Page.follow_level rfl hzero hp))⟩
      · rw [Outline.rescaled_self hw'.ne_nil, hp] at hrun
        exact hrun

def anyTags : TagTable := [("*", ⟨.normal, none⟩)]

def commentedLines : List DocumentLine :=
  [.skipped "# list", .markup 0 (.element "p" none true), .skipped [],
    .skipped "\t# first: x", .markup 1 (.text "x"), .skipped "   #",
    .markup 1 (.element "b" none false), .skipped "  "]

theorem compile_commented_eq_iff_sample :
    (compile anyTags [("a", sourceText (commentedLines.map (DocumentLine.text "\t")) false)]
        "a").output =
      (compile anyTags [("b", sourceText ((DocumentLine.outline commentedLines).lines "\t") true)]
        "b").output := by
  have h := compile_commented_eq_iff anyTags "\t" commentedLines false true
    [("a", sourceText (commentedLines.map (DocumentLine.text "\t")) false)]
    [("b", sourceText ((DocumentLine.outline commentedLines).lines "\t") true)] "a" "b"
    rfl rfl (by decide) (by decide) (by decide) (by decide)
  exact (h.2.mpr (Or.inr (by decide))).2

def deepComment : List DocumentLine :=
  [.markup 0 (.element "a" none false), .skipped "\t\t# x",
    .markup 1 (.element "b" none false)]

theorem deepComment_not_skipped :
    deepComment.all DocumentLine.isPlain = true ∧ WellIndented (DocumentLine.outline deepComment).depths ∧
      (DocumentLine.outline deepComment).isAllowed anyTags = true ∧
      (compile anyTags [("a", sourceText ((DocumentLine.outline deepComment).lines "\t") true)]
        "a").output = "<a>\n\t<b />\n</a>\n" ∧
      (compile anyTags [("a", sourceText (deepComment.map (DocumentLine.text "\t")) true)]
        "a").output = "<a />\n<b />\n" :=
  ⟨by decide, by decide, by decide, by decide +kernel, by decide +kernel⟩

end Document
end OutlineMarkup
