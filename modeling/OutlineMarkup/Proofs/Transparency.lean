import OutlineMarkup.Proofs.Defining
import OutlineMarkup.Proofs.Rewinding

/-!
# Definitions between lines

A definition that is never called may stand anywhere before a line at the left edge. Its header takes
the level back to zero, so the elements that are open at that point are closed too late or in another
form. The module says exactly where a definition makes no difference to the output.
-/

namespace OutlineMarkup
open Compile Outline

/-- A definition between two parts of a document makes no difference: nothing is nested where it
stands, or the line before it does not take the short form and the lines around that one need not be
closed before the document goes on. -/
def Outline.Neutral (tags : TagTable) (o₁ o₂ : Outline) : Prop :=
  ∀ x ∈ o₁.getLast?, x.1 = 0 ∨
    x.2.isNormal tags = false ∧
      (o₂ = [] ∨ (∀ y ∈ o₁.opened.tail, y.2.name? = none) ∨
        (x.2.isSingle tags = true ∧ ∀ y ∈ o₂.getLast?, y.2.isSingle tags = true))

instance (tags : TagTable) (o₁ o₂ : Outline) : Decidable (o₁.Neutral tags o₂) :=
  inferInstanceAs (Decidable (∀ x ∈ o₁.getLast?, _))

namespace Document
variable {tags : TagTable} {files : Files} {path u : Text} {o₁ o₂ : Outline}

/-- A document with a definition in it goes on after the definition from a rewound page. -/
theorem compile_defined {p : Procedure} {terminated : Bool} {q d : Page}
    (hread : HasFile files path (sourceText (o₁.lines u ++ (p.lines u ++ o₂.lines u)) terminated))
    (hu : isUnit u) (hs₁ : o₁.isPlain) (hs₂ : o₂.isPlain)
    (hw₁ : WellIndented o₁.depths) (hw₂ : WellIndented o₂.depths) (hp : p.IsDefinable)
    (hfree : tags.has p.name = false) (hcall : ∀ x ∈ o₂, x.2.name? ≠ some p.name)
    (hun : ∀ l ∈ p.lines u, isUnreserved l)
    (hq : ({} : Page).follow tags u o₁.trace = .ok q) (hd : q.rewind.follow tags u o₂.trace = .ok d) :
    (compile tags files path).Writes (d.output tags u) := by
  have hheader : isUnreserved p.header := hun _ List.mem_cons_self
  have hcalm := Procedure.calm_body hp hun
  have hsigns : ∀ l ∈ o₁.lines u ++ (p.lines u ++ o₂.lines u), Unbroken l := by
    intro l hl
    rcases List.mem_append.mp hl with hl | hl
    · exact line_signs hs₁ hu l hl
    rcases List.mem_append.mp hl with hl | hl
    · exact Procedure.line_signs hp hu hcalm l hl
    · exact line_signs hs₂ hu l hl
  obtain ⟨n, _, hhandle⟩ := handle_eq tags hread
  change handle tags files path = line (lineTo n) at hhandle
  obtain ⟨xs, ys, hcut, hxs, hys⟩ :=
    forall₂_append_left (forall₂_ended (o₁.lines u ++ (p.lines u ++ o₂.lines u)) terminated)
  obtain ⟨ys, zs, rfl, hys, hzs⟩ := forall₂_append_left hys
  -- The lines before the definition leave the page `q`.
  have hbefore : Does tags u (fun st => st.methods = [] ∧ st.dropMarks = false)
      (xs.forM (line (lineTo n))) o₁.trace :=
    Does.outline hu hs₁ hxs fun st hst _ _ _ _ => by rw [hst.1]; rfl
  obtain ⟨s, hrun, rfl, hi, hstore, _⟩ := hbefore.of_ok (idle_start u) ⟨rfl, rfl⟩
    (climbs_trace hw₁) hq
  obtain ⟨ls, methods, hdefine, _, _, hother⟩ := lines_defined (lineTo n) (s := s) hu hp
    (by rwa [hi.table]) hheader hcalm (hi.unit.imp id And.left) hi.block hi.verbatims hi.loops hstore.2 hys
  obtain ⟨t, ht⟩ : ∃ t : Session, t = { (s.define p).learn u p.body.length with methods := methods } :=
    ⟨_, rfl⟩
  rw [← ht] at hdefine
  have hlength : p.body.length ≠ 0 := by simpa using hp.nonempty
  have hidle : t.endDefinition.Idle tags u := by
    rw [ht]
    refine ⟨hi.table, hi.block, hi.verbatims, hi.loops, rfl, Or.inl ?_, ⟨Int.le_refl _, fun _ => rfl⟩,
      ⟨hi.known.last, hi.known.entries⟩⟩
    simp [Session.learn, hlength]
  have hpage : t.endDefinition.page = s.page.rewind := by
    rw [ht]
    rfl
  have hlines : (((Source.lines (sourceText (o₁.lines u ++ (p.lines u ++ o₂.lines u))
      terminated)).map (·.2)).forM (handle tags files path)).runFrom (start tags files path) =
      (zs.forM (handle tags files path)).runFrom t := by
    rw [source_lines hsigns, hcut, hhandle, Action.runFrom_forM_append, hrun]
    change ((ys ++ zs).forM (line (lineTo n))).runFrom s = _
    rw [Action.runFrom_forM_append, hdefine]
  cases o₂ with
  | nil =>
    cases hzs
    cases hd
    have hclose := closeAll_run (handle tags files path) hidle
      (indents_of_isUnit hu)
    rw [← closeAll_ends_definition hidle, hpage] at hclose
    exact compile_of_ok hread hlines hclose
  | cons x o₂ =>
    obtain ⟨k, m⟩ := x
    obtain rfl : k = 0 := hw₂.2 k rfl
    -- The line at the left edge ends the definition.
    have hfirst : (zs.forM (handle tags files path)).runFrom t =
        (zs.forM (handle tags files path)).runFrom t.endDefinition := by
      rcases hzs with _ | ⟨⟨e, he, rfl⟩, _⟩
      have hshaped := List.all_eq_true.mp hs₂ (0, m) List.mem_cons_self
      rw [Bool.and_eq_true] at hshaped
      have hends := line_ends_definition (lineTo n) hidle
        (Markup.spells_written hshaped.1 hshaped.2).calm hu he
      rw [sourceLine, ← List.append_assoc] at hends
      rw [Action.runFrom_forM_cons, Action.runFrom_forM_cons, hhandle, hends]
    have hinv : ∀ name, name ≠ p.name → t.endDefinition.methods.get? name = none := by
      intro name hname
      rw [ht]
      change methods.get? name = none
      have hmethods : s.methods = [] := hstore.1
      rw [hother name hname, hmethods]
      rfl
    have hdoes : Does tags u (fun st => ∀ name, name ≠ p.name → st.methods.get? name = none)
        (zs.forM (line (lineTo n))) (trace ((0, m) :: o₂)) :=
      Does.outline hu hs₂ hzs fun st hst y hy name hname => hst name fun h => hcall y hy (h ▸ hname)
    have hclimbs : (trace ((0, m) :: o₂)).Climbs t.endDefinition.page.room := by
      have hclimbs := climbs_trace hw₂
      exact ⟨hclimbs.1.trans (Nat.zero_le _), hclimbs.2⟩
    obtain ⟨s', hs', rfl, hi', _⟩ := hdoes.of_ok hidle hinv hclimbs (by rw [hpage]; exact hd)
    rw [hfirst, hhandle, hs', ← hhandle] at hlines
    exact compile_of_ok hread hlines (closeAll_run _ hi' (indents_of_isUnit hu))

/-- On the page, going on from a rewound page and going on from the page itself come to the same
output exactly where a definition is neutral. -/
theorem follow_rewind_iff (hu : isUnit u) (hs₂ : o₂.isPlain)
    (hw₁ : WellIndented o₁.depths) (hw₂ : WellIndented o₂.depths)
    (hc₁ : ∀ x ∈ o₁, x.2.check tags = .ok ()) (hc₂ : ∀ x ∈ o₂, x.2.check tags = .ok ()) :
    ∃ q d d', ({} : Page).follow tags u o₁.trace = .ok q ∧ q.rewind.follow tags u o₂.trace = .ok d ∧
      q.follow tags u o₂.trace = .ok d' ∧ (d.output tags u = d'.output tags u ↔ o₁.Neutral tags o₂) := by
  have hblank := Page.balanced_empty
  have hforest₂ := outline_forest hw₂
  have hrest : ∀ {q : Page}, q.Balanced → ∃ d, q.follow tags u o₂.trace = .ok d := by
    intro q hq
    obtain ⟨d, hd, _⟩ := Forest.follow_printing hu (Forest.ofOutline o₂) 0 q hq (Nat.zero_le _)
      (by rw [hforest₂]; exact hc₂)
    rw [hforest₂] at hd
    exact ⟨d, hd⟩
  rcases List.eq_nil_or_concat' o₁ with rfl | ⟨o, x, rfl⟩
  · obtain ⟨d, hd⟩ := hrest hblank
    exact ⟨{}, d, d, rfl, hd, hd, fun _ x hx => (by cases hx), fun _ => rfl⟩
  · obtain ⟨k, m⟩ := x
    have hclimbs := climbs_trace hw₁
    have hforest₁ : (Forest.ofOutline (o ++ [(k, m)])).outline 0 = o ++ [(k, m)] :=
      Forest.outline_ofOutline _ 0 (fun _ _ => Nat.zero_le _) hclimbs
    obtain ⟨q, hq, hqbal, _⟩ := Forest.follow_printing hu (Forest.ofOutline (o ++ [(k, m)])) 0 {} hblank
      (Nat.zero_le _) (by rw [hforest₁]; exact hc₁)
    rw [hforest₁] at hq
    obtain ⟨p, hp, hput⟩ : ∃ p, ({} : Page).follow tags u (trace o) = .ok p ∧ p.put tags u k m = .ok q := by
      rw [trace_append, Page.follow_append] at hq
      cases hp : ({} : Page).follow tags u (trace o) with
      | error f =>
        rw [hp] at hq
        cases hq
      | ok p =>
        rw [hp] at hq
        change (p.put tags u k m >>= pure) = .ok q at hq
        rw [bind_pure] at hq
        exact ⟨p, rfl, hq⟩
    rw [trace_append, Trace.climbs_append] at hclimbs
    obtain ⟨hpbal, hpel⟩ := Page.follow_opened hclimbs.1 hp
    have hk : k ≤ p.room := by
      rw [Page.follow_room hp]
      exact hclimbs.2.1
    obtain ⟨before, hlatest⟩ := hpbal.put_latest hk hput
    have hlast : (o ++ [(k, m)]).getLast? = some (k, m) := List.getLast?_concat
    cases k with
    | zero =>
      have hsame : q.rewind = q := by
        rw [Page.rewind]
        have hlevel : q.level = 0 := hlatest.level
        rw [← hlevel]
      obtain ⟨d, hd⟩ := hrest hqbal
      refine ⟨q, d, d, hq, by rw [hsame]; exact hd, hd, fun _ y hy => ?_, fun _ => rfl⟩
      rw [hlast] at hy
      cases hy
      exact Or.inl rfl
    | succ k =>
      have habove : p.elements.drop (p.room - (k + 1)) = entries u (opened (o ++ [(k + 1, m)])).tail := by
        have hlength : p.room = (opened o).length := by
          rw [← hpbal.length, hpel, entries, List.length_map]
        rw [hpel, hlength, opened_concat]
        simp [entries]
      rw [habove] at hlatest
      obtain ⟨d, d', hd, hd', hiff⟩ := hlatest.rewind_output_eq_iff hu hw₂ hs₂ hc₂
      refine ⟨q, d, d', hq, hd, hd', hiff.trans ?_⟩
      rw [Neutral, hlast]
      simp

/-- A definition that is never called, before a line at the left edge or at the end of a document,
never keeps the document from compiling. It leaves the output as it is exactly where it is neutral. -/
theorem compile_defined_eq_iff (tags : TagTable) (u : Text) (o₁ o₂ : Outline) (p : Procedure)
    (terminated terminated' : Bool) (files files' : Files) (path path' : Text)
    (hread : HasFile files path (sourceText (o₁.lines u ++ (p.lines u ++ o₂.lines u)) terminated))
    (hread' : HasFile files' path' (sourceText ((o₁ ++ o₂).lines u) terminated'))
    (hu : isUnit u = true) (hs : (o₁ ++ o₂).isPlain = true) (hw : WellIndented (o₁ ++ o₂).depths)
    (ha : (o₁ ++ o₂).isAllowed tags = true) (hedge : ∀ x ∈ o₂.head?, x.1 = 0) (hp : p.IsDefinable)
    (hfree : tags.has p.name = false) (hcall : ∀ x ∈ o₂, x.2.name? ≠ some p.name)
    (hun : ∀ l ∈ p.lines u, isUnreserved l = true) :
    (compile tags files path).fault = none ∧ (compile tags files' path').fault = none ∧
      ((compile tags files path).output = (compile tags files' path').output ↔
        o₁.Neutral tags o₂) := by
  have hcheck : ∀ x ∈ o₁ ++ o₂, x.2.check tags = .ok () := by
    intro x hx
    have hshaped := List.all_eq_true.mp hs x hx
    rw [Bool.and_eq_true] at hshaped
    exact (Markup.check_eq_ok_iff hshaped.1).mpr (List.all_eq_true.mp ha x hx)
  have hdocument := compile_outline tags hu hread' hs hw
  have hs' : o₁.isPlain = true ∧ o₂.isPlain = true := by
    rw [Outline.isPlain, List.all_append, Bool.and_eq_true] at hs
    exact hs
  have hw' : WellIndented o₁.depths ∧ WellIndented o₂.depths := by
    rw [WellIndented, Outline.depths, List.map_append, List.isChain_append] at hw
    refine ⟨⟨hw.1.1, fun d hd => hw.2 d ?_⟩, ⟨hw.1.2.1, fun d hd => ?_⟩⟩
    · have hd' : d ∈ (o₁.map (·.1)).head? := hd
      rw [Option.mem_def] at hd' ⊢
      rw [List.head?_append, hd', Option.some_or]
    · have hd' : d ∈ (o₂.map (·.1)).head? := hd
      rw [List.head?_map, Option.mem_def, Option.map_eq_some_iff] at hd'
      obtain ⟨x, hx, rfl⟩ := hd'
      exact hedge x hx
  obtain ⟨q, d, d', hq, hd, hd', hiff⟩ := follow_rewind_iff hu hs'.2 hw'.1 hw'.2
    (fun x hx => hcheck x (List.mem_append_left _ hx)) (fun x hx => hcheck x (List.mem_append_right _ hx))
  obtain ⟨hfault, houtput⟩ := compile_defined hread hu hs'.1 hs'.2 hw'.1 hw'.2 hp hfree hcall hun hq hd
  have hfollow : ({} : Page).follow tags u (o₁ ++ o₂).trace = .ok d' := by
    rw [Outline.trace_append, Page.follow_append, hq]
    exact hd'
  rw [hfollow] at hdocument
  rw [houtput, hdocument.2]
  exact ⟨hfault, hdocument.1, hiff⟩

def separateTags : TagTable := [("*", ⟨.normal, none⟩), ("pre", ⟨.separate, none⟩)]

def noteDefinition : Procedure :=
  ⟨"note_1", some ["w"], true,
    [(1, .markup (.element "p" (some [("id", [.ref "w"])]) true)),
      (2, .markup (.text [.char 'x', .char ' ', .ref "w"]))]⟩

theorem noteDefinition_isDefinable : noteDefinition.IsDefinable :=
  ⟨by decide, by decide, by decide, by decide, by decide, by decide, by decide⟩

def neutralOutline : Outline :=
  [(0, .element "div" none true), (1, .element "p" none false), (0, .text "x"),
    (1, .element "pre" none false)]

def nextOutline : Outline := [(0, .element "p" none true), (1, .text "y")]

theorem compile_defined_eq_iff_sample :
    (compile separateTags [("a", sourceText (neutralOutline.lines "\t" ++
        (noteDefinition.lines "\t" ++ nextOutline.lines "\t")) true)] "a").output =
      (compile separateTags
        [("b", sourceText ((neutralOutline ++ nextOutline).lines "\t") false)]
        "b").output := by
  have h := compile_defined_eq_iff separateTags "\t" neutralOutline nextOutline noteDefinition
    true false [("a", sourceText (neutralOutline.lines "\t" ++
      (noteDefinition.lines "\t" ++ nextOutline.lines "\t")) true)]
    [("b", sourceText ((neutralOutline ++ nextOutline).lines "\t") false)] "a"
    "b" (by decide +kernel) (by decide +kernel) (by decide) (by decide) (by decide) (by decide)
    (by decide) noteDefinition_isDefinable (by decide) (by decide) (by decide +kernel)
  exact h.2.2.mpr (by decide)

def nestedOutline : Outline :=
  [(0, .element "a" none false), (1, .element "b" none false)]

theorem nestedOutline_not_neutral :
    nestedOutline.isPlain = true ∧ nextOutline.isPlain = true ∧
      WellIndented (nestedOutline ++ nextOutline).depths ∧
      (nestedOutline ++ nextOutline).isAllowed separateTags = true ∧ noteDefinition.IsDefinable ∧
      (compile separateTags [("a", sourceText ((nestedOutline ++ nextOutline).lines "\t")
        true)] "a").output = "<a>\n\t<b />\n</a>\n<p>\n\ty\n</p>\n" ∧
      (compile separateTags [("a", sourceText (nestedOutline.lines "\t" ++
        (noteDefinition.lines "\t" ++ nextOutline.lines "\t")) true)] "a").output =
        "<a>\n\t<b>\n\t</b>\n<p>\n\ty\n</p>\n</a>\n" :=
  ⟨by decide, by decide, by decide, by decide, noteDefinition_isDefinable, by decide +kernel,
    by decide +kernel⟩

end Document
end OutlineMarkup
