import OutlineMarkup.Proofs.Acceptance
import OutlineMarkup.Proofs.EngineLines

/-!
# Documents with block calls

A document declares a template engine with a method that encloses lines, and then has lines of markup
and lines that call the method. Main result: the first call stops the compilation, with what the lines
before it have written; a document without calls is printed as its markup.
-/

namespace OutlineMarkup
open List Outline

theorem last_concat_ne_backslash {t : Text} {c : Char} (hb : Text.isBlank c = false) (hc : c ≠ '\\') :
    (t ++ [c]).trimRight.getLast? ≠ some '\\' := by
  have htrim : (t ++ [c]).trimRight = t ++ [c] := by
    rw [Text.trimRight, Text.dropRightWhile, reverse_append, reverse_singleton,
      singleton_append, dropWhile_cons_of_neg (by simp [hb])]
    simp
  rw [htrim, getLast?_concat]
  exact fun e => hc (Option.some.inj e)

inductive TemplateLine where
  | markup (depth : Nat) (m : Markup Text)
  | call (depth : Nat) (args : List Text)

namespace TemplateLine

def depth : TemplateLine → Nat
  | markup k _ => k
  | call k _ => k

def text (b : BlockEngine) (u : Text) : TemplateLine → Text
  | markup k m => u.times k ++ m.written
  | call k args => u.times k ++ b.callLine args

def isPlain (b : BlockEngine) : TemplateLine → Bool
  | markup _ m => m.isPlain && isUnreserved m.written
  | call _ args => b.isCallable args

def isCall : TemplateLine → Bool
  | markup _ _ => false
  | call _ _ => true

def lead : List TemplateLine → Outline
  | [] => []
  | markup k m :: ls => (k, m) :: lead ls
  | call _ _ :: _ => []

def ofOutline (o : Outline) : List TemplateLine := o.map fun x => markup x.1 x.2

variable {b : BlockEngine} {u : Text} {ls : List TemplateLine}

theorem eq_ofOutline (h : ls.any isCall = false) : ls = ofOutline (lead ls) := by
  induction ls with
  | nil => rfl
  | cons l ls ih =>
    rw [any_cons, Bool.or_eq_false_iff] at h
    cases l with
    | markup k m => exact congrArg _ (ih h.2)
    | call k args => exact Bool.noConfusion h.1

theorem exists_first_call (h : ls.any isCall) :
    ∃ k args rest, ls = ofOutline (lead ls) ++ call k args :: rest := by
  induction ls with
  | nil => cases h
  | cons l ls ih =>
    cases l with
    | call k args => exact ⟨k, args, ls, rfl⟩
    | markup k m =>
      obtain ⟨d, args, rest, hrest⟩ := ih h
      exact ⟨d, args, rest, congrArg _ hrest⟩

theorem text_ofOutline (b : BlockEngine) (u : Text) (o : Outline) : (ofOutline o).map (text b u) = o.lines u :=
  map_map

theorem depth_ofOutline (o : Outline) : (ofOutline o).map depth = o.depths := map_map

theorem isPlain_lead (h : ls.all (isPlain b)) : (lead ls).isPlain := by
  induction ls with
  | nil => rfl
  | cons l ls ih =>
    rw [all_cons, Bool.and_eq_true] at h
    cases l with
    | call k args => rfl
    | markup k m =>
      rw [lead, Outline.isPlain, all_cons, Bool.and_eq_true]
      exact ⟨h.1, ih h.2⟩

theorem signs (hu : isUnit u) (h : ls.all (isPlain b)) : ∀ l ∈ ls.map (text b u), Complete l := by
  intro l hl
  obtain ⟨r, hr, rfl⟩ := mem_map.mp hl
  have hplain := all_eq_true.mp h r hr
  cases r with
  | markup k m =>
    have hplain : (m.isPlain && isUnreserved m.written) := hplain
    rw [Bool.and_eq_true] at hplain
    have hsigns := (Markup.spells_written hplain.1 hplain.2).calm.line_signs (k := k) hu
    exact ⟨hsigns.1, hsigns.2.1, last_ne_backslash hsigns.2.2⟩
  | call k args =>
    have hplain : b.isCallable args := hplain
    simp only [BlockEngine.isCallable, isClear, Bool.and_eq_true, Bool.not_eq_true',
      Text.hasChar_eq_false_iff] at hplain
    have hnl : '\n' ∉ b.callLine args := hplain.1.1.1.1.2.2
    refine ⟨?_, ?_, ?_⟩
    · simp [text, BlockEngine.callLine_eq]
    · simp [text, feed_not_mem_times hu, hnl]
    · rw [text, BlockEngine.callLine_eq, ← append_assoc]
      exact last_concat_ne_backslash rfl (by decide)

end TemplateLine

open TemplateLine (isPlain text ofOutline text_ofOutline)

theorem WellIndented.of_append {as bs : List Nat} (h : WellIndented (as ++ bs)) : WellIndented as := by
  refine ⟨h.1.left_of_append, fun d hd => h.2 d ?_⟩
  rw [head?_append, hd]
  rfl

namespace Document
variable {tags : TagTable} {files : Files} {path : Text} {b : BlockEngine} {u : Text}
  {ls : List TemplateLine} {terminated : Bool} {o : Outline}

def templateLines (b : BlockEngine) (u : Text) (ls : List TemplateLine) : List Text :=
  b.engineText :: b.methodText :: ls.map (TemplateLine.text b u)

theorem signs_declarations (hb : b.Declarable) : ∀ l ∈ [b.engineText, b.methodText],
    Complete l := by
  have hclear := hb.clear
  have hmethod := hb.methodClear
  simp only [isClear, Bool.and_eq_true, Bool.not_eq_true', Text.hasChar_eq_false_iff] at hclear hmethod
  intro l hl
  simp only [mem_cons, not_mem_nil, or_false] at hl
  rcases hl with rfl | rfl
  · have hend : b.engineText = (b.name ++ " = TemplateEngine('" ++ b.format ++ ['\'']) ++ [')'] := by
      simp [BlockEngine.engineText]
    refine ⟨by simp [hend], hclear.2, ?_⟩
    rw [hend]
    exact last_concat_ne_backslash rfl (by decide)
  · have hend : b.methodText = (b.called ++ " = create('" ++ b.opening ++ "', '" ++ b.closing ++
        ['\'']) ++ [')'] := by
      simp [BlockEngine.methodText]
    refine ⟨by simp [hend], hmethod.2, ?_⟩
    rw [hend]
    exact last_concat_ne_backslash rfl (by decide)

theorem declarations_run (tags : TagTable) (hu : isUnit u) (hb : b.Declarable) (hls : ls.all (isPlain b))
    (hread : HasFile files path (sourceText (templateLines b u ls) terminated)) :
    ∃ x y s, (Source.lines (sourceText (templateLines b u ls) terminated)).map (·.2) =
        [x, y] ++ ended (ls.map (text b u)) terminated ∧
      ([x, y].forM (handle tags files path)).runFrom (start tags files path) = (.ok (), s) ∧
      s.Idle tags u ∧ s.page = {} ∧ s.methods = [] ∧ s.engines.get? b.name = some b.engine := by
  have hsigns : ∀ l ∈ templateLines b u ls, Complete l := by
    intro l hl
    rcases mem_append.mp (show l ∈ [b.engineText, b.methodText] ++ ls.map (text b u) from hl)
      with hl | hl
    · exact signs_declarations hb l hl
    · exact TemplateLine.signs hu hls l hl
  obtain ⟨e, he, hengine⟩ := ended_cons b.engineText (b.methodText :: ls.map (text b u)) terminated
  obtain ⟨e', he', hmethod⟩ := ended_cons b.methodText (ls.map (text b u)) terminated
  obtain ⟨n, _, hn⟩ := handle_eq tags hread
  have hidle : (start tags files path).Idle tags u := idle_start u
  obtain ⟨s₁, hs₁⟩ : ∃ s₁ : Session, s₁ = { start tags files path with
    engines := (start tags files path).engines.set b.name (Engine.ofFormat b.format) } := ⟨_, rfl⟩
  have hidle₁ : s₁.Idle tags u := by
    rw [hs₁]
    exact ⟨hidle.table, hidle.block, hidle.verbatims, hidle.loops, hidle.defining, hidle.unit, hidle.regular,
      hidle.known⟩
  have hget : s₁.engines.get? b.name = some (Engine.ofFormat b.format) := by
    rw [hs₁]
    exact Table.get?_set_self _ _ _
  refine ⟨b.engineText ++ e, b.methodText ++ e', { s₁ with
    engines := s₁.engines.set b.name b.engine }, ?_, ?_, ?_, ?_, ?_, ?_⟩
  · rw [source_lines_of_last hsigns, templateLines, hengine, hmethod]
    rfl
  · rw [hn]
    have hfirst : (Compile.lineTo (n + 1) (b.engineText ++ e)).runFrom (start tags files path) =
        (.ok (), s₁) := by
      rw [hs₁]
      exact Compile.line_declaresEngine hb hidle hu he
    have hsecond : (Compile.lineTo (n + 1) (b.methodText ++ e')).runFrom s₁ =
        (.ok (), { s₁ with engines := s₁.engines.set b.name b.engine }) :=
      Compile.line_declaresMethod hb hidle₁ hu he' hget
    rw [Action.runFrom_forM_cons_ok hfirst, Action.runFrom_forM_cons_ok hsecond]
    rfl
  · exact ⟨hidle₁.table, hidle₁.block, hidle₁.verbatims, hidle₁.loops, hidle₁.defining, hidle₁.unit,
      hidle₁.regular, hidle₁.known⟩
  · rw [hs₁]
    rfl
  · rw [hs₁]
    rfl
  · exact Table.get?_set_self _ _ _

/-- What a session has to know of the engine while there are only lines of markup. -/
def Knows (b : BlockEngine) (st : Store) : Prop := st.methods = [] ∧ st.engines.get? b.name = some b.engine

theorem Knows.does {xs : List Text} (n : Nat) (hu : isUnit u) (ho : o.isPlain)
    (hxs : Forall₂ IsEnded (o.lines u) xs) :
    Does tags u (Knows b) (xs.forM (Compile.lineTo (n + 1))) o.trace :=
  Does.outline hu ho hxs fun st hst _ _ _ _ => by rw [hst.1]; rfl

theorem compile_markup_declared (hu : isUnit u) (hb : b.Declarable)
    (hread : HasFile files path (sourceText (templateLines b u (ofOutline o)) terminated))
    (hls : (ofOutline o).all (isPlain b)) (ho : o.isPlain)
    (hw : WellIndented o.depths) (ha : o.isAllowed tags) : (compile tags files path).Writes
      (((Forest.ofOutline o).printing tags 0).text u) := by
  obtain ⟨x, y, s, hlines, hrun, hidle, hpage, hmethods, hengine⟩ := declarations_run tags hu hb hls hread
  obtain ⟨n, _, hn⟩ := handle_eq tags hread
  obtain ⟨p, hfollow, houtput⟩ := follow_printing hu ho hw ha
  have hclimbs : o.trace.Climbs s.page.room := by
    rw [hpage]
    exact climbs_trace hw
  have hends := Knows.does n hu ho (forall₂_ended (o.lines u) terminated) s hidle ⟨hmethods, hengine⟩
    (Or.inr hclimbs)
  rw [hpage, hfollow, ← hn] at hends
  have hcompile := compile_of_ends (indents_of_isUnit hu) hread (by
    rw [hlines, text_ofOutline, Action.runFrom_forM_append_ok hrun]) hends
  exact ⟨hcompile.1, hcompile.2.trans houtput⟩

theorem compile_stops_at_call {k : Nat} {args : List Text} {rest : List TemplateLine}
    (hu : isUnit u) (hb : b.Declarable) (hapart : b.isApart) (hread : HasFile files path
      (sourceText (templateLines b u (ofOutline o ++ .call k args :: rest)) terminated))
    (hls : (ofOutline o ++ .call k args :: rest).all (isPlain b)) (ho : o.isPlain)
    (hw : WellIndented ((ofOutline o ++ .call k args :: rest).map TemplateLine.depth))
    (ha : o.isAllowed tags) : (compile tags files path).fault = some .stopped ∧
      ∃ p, ({} : Page).follow tags u o.trace = .ok p ∧
        (compile tags files path).output = p.written.reverse := by
  obtain ⟨x, y, s, hlines, hrun, hidle, hpage, hmethods, hengine⟩ := declarations_run tags hu hb hls hread
  obtain ⟨n, _, hn⟩ := handle_eq tags hread
  rw [map_append, TemplateLine.depth_ofOutline] at hw
  obtain ⟨p, hfollow, _⟩ := follow_printing hu ho hw.of_append ha
  -- The room that the markup leaves is enough for the call.
  have hclimbs : (o.trace ++ (k, none) :: rest.map fun r : TemplateLine => (r.depth, none)).Climbs 0 := by
    refine WellIndented.climbs ?_
    rw [map_append, map_cons, map_map, trace, map_map]
    exact hw
  rw [Trace.climbs_append] at hclimbs
  have hroom : k ≤ p.room := by
    rw [Page.follow_room hfollow]
    exact hclimbs.2.1
  obtain ⟨s', hmarkup, hplaced, hidle', hknows, _⟩ := (Knows.does n hu ho
    (forall₂_map_right_iff.mpr (forall₂_same.mpr fun l _ => ⟨['\n'], Or.inr rfl, rfl⟩))).of_ok hidle
    ⟨hmethods, hengine⟩ (by rw [hpage]; exact hclimbs.1) (by rw [hpage]; exact hfollow)
  obtain ⟨e, he, hcall⟩ := ended_cons (text b u (.call k args))
    (rest.map (text b u)) terminated
  have hsource : (Source.lines (sourceText
      (templateLines b u (ofOutline o ++ .call k args :: rest)) terminated)).map (·.2) =
      ([x, y] ++ (o.lines u).map (· ++ ['\n'])) ++ (u.times k ++ b.callLine args ++ e) ::
        ended (rest.map (text b u)) terminated := by
    rw [hlines, map_append, text_ofOutline, map_cons, ended_append_cons, hcall, append_assoc]
    rfl
  have hargs : b.isCallable args := all_eq_true.mp hls (.call k args) (by simp)
  have hline : (handle tags files path (u.times k ++ b.callLine args ++ e)).runFrom s' =
      (.error (.rejected .engineCall), s'.learn u k) := by
    rw [hn, append_assoc]
    exact Compile.line_blockCall hb hapart hargs hidle' (hidle'.reads (hplaced ▸ hroom)) hu he hknows.2
  obtain ⟨hfault, houtput⟩ := compile_of_rejected hread hsource (by
    rw [Action.runFrom_forM_append_ok hrun, hn, hmarkup]) hline
  refine ⟨hfault, p, hfollow, ?_⟩
  rw [houtput, Session.page_learn, hplaced]

/-- After the declarations of a template engine and of a method that encloses lines, markup is printed
as ever, and the first line that calls the method stops the compilation with what the lines above it
have written. The first two characters of a call have to differ. -/
theorem compile_blockCalls (tags : TagTable) (u : Text) (b : BlockEngine) (ls : List TemplateLine)
    (terminated : Bool) (files : Files) (path : Text)
    (hread : HasFile files path (sourceText (templateLines b u ls) terminated))
    (hu : isUnit u = true) (hb : b.isDeclarable = true) (hapart : b.isApart = true)
    (hls : ls.all (TemplateLine.isPlain b) = true) (hw : WellIndented (ls.map TemplateLine.depth))
    (ha : (TemplateLine.lead ls).isAllowed tags = true) :
    if ls.any TemplateLine.isCall then
      (compile tags files path).fault = some .stopped ∧
        ∃ p, ({} : Page).follow tags u (TemplateLine.lead ls).trace = .ok p ∧
          (compile tags files path).output = p.written.reverse
    else
      (compile tags files path).Writes (((Forest.ofOutline (TemplateLine.lead ls)).printing tags 0).text u) := by
  have hdeclarable := BlockEngine.declarable_of_isDeclarable hb
  have hplain := TemplateLine.isPlain_lead hls
  split
  · rename_i hsome
    obtain ⟨k, args, rest, hcut⟩ := TemplateLine.exists_first_call hsome
    generalize TemplateLine.lead ls = o at hcut hplain ha ⊢
    subst hcut
    exact compile_stops_at_call hu hdeclarable hapart hread hls hplain hw ha
  · rename_i hnone
    rw [Bool.not_eq_true] at hnone
    have hcut := TemplateLine.eq_ofOutline hnone
    generalize TemplateLine.lead ls = o at hcut hplain ha ⊢
    subst hcut
    rw [TemplateLine.depth_ofOutline] at hw
    exact compile_markup_declared hu hdeclarable hread hls hplain hw ha

def braceEngine : BlockEngine :=
  ⟨"django", ['\x7b'], ['\x7d'], "if", "if %s", "endif"⟩

def guardedLines : List TemplateLine :=
  [.markup 0 (.element "div" none true), .markup 1 (.element "p" none false),
    .call 1 ["user"], .markup 2 (.text "x")]

def guardedFiles : Files :=
  [("a", sourceText (templateLines braceEngine "\t" guardedLines) true)]

theorem compile_blockCalls_sample :
    (compile [("*", ⟨.normal, none⟩)] guardedFiles "a").fault = some .stopped ∧
      ∃ p, ({} : Page).follow [("*", ⟨.normal, none⟩)] "\t"
          (TemplateLine.lead guardedLines).trace = .ok p ∧
        (compile [("*", ⟨.normal, none⟩)] guardedFiles "a").output = p.written.reverse := by
  have h := compile_blockCalls [("*", ⟨.normal, none⟩)] "\t" braceEngine guardedLines true
    guardedFiles "a" rfl (by decide) (by decide) (by decide) (by decide) (by decide) (by decide)
  rw [if_pos (by decide)] at h
  exact h

def enclosedFiles : Files :=
  [("a", sourceText (templateLines braceEngine "\t"
    [.call 0 ["x"], .markup 1 (.element "p" none false)]) true)]

theorem blockCall_not_printed :
    braceEngine.isDeclarable = true ∧ braceEngine.isApart = true ∧ braceEngine.isCallable ["x"] = true ∧
      (compile [("*", ⟨.normal, none⟩)] enclosedFiles "a").fault = some .stopped ∧
      (compile [("*", ⟨.normal, none⟩)] enclosedFiles "a").output = [] :=
  ⟨by decide, by decide, by decide, by decide +kernel, by decide +kernel⟩

end Document
end OutlineMarkup
