import Mathlib.Algebra.BigOperators.Group.List.Basic
import OutlineMarkup.Proofs.Defining
import OutlineMarkup.Proofs.Rendering

/-!
# Calls mean inlining

A program compiles to what the document with every call replaced compiles to. A call runs the lines
of its method on variables that hold the arguments, and only lines of methods that are not running
themselves come up meanwhile, so the variables stay as they are until the method has ended.
-/

namespace OutlineMarkup
open List Compile Program

/-! ## Programs as routines -/

namespace Program
variable {P : Program} {tags : TagTable} {u : Text} {p : Procedure} {x : Nat × Item Text}

theorem IsWellFormed.body_unreserved (hP : P.IsWellFormed tags u)
    (hp : p ∈ P.procedures) {x : Nat × Item Template} (hx : x ∈ p.body) :
    isUnreserved (x.2.map Template.source).written := by
  have hline : u.times x.1 ++ (x.2.map Template.source).written ∈ P.lines u :=
    mem_append_left _ (mem_flatMap.mpr
      ⟨p, hp, .tail _ (mem_map.mpr ⟨x, hx, rfl⟩)⟩)
  exact isUnreserved_of_isInfix (hP.unreserved _ hline) (suffix_append _ _).isInfix

theorem admits_routines {α : Type} {i : Item α} (h : P.admits i) : P.routines.Admits i := by
  cases i with
  | markup m =>
    intro name hname
    rw [admits, Option.mem_def.mp hname] at h
    rw [routines, Option.map_eq_none_iff]
    simpa using h
  | call name arguments colon =>
    rw [admits] at h
    cases hp : P.find? name with
    | none => simp [hp] at h
    | some p =>
      have hlength : p.names.length = (arguments.getD []).length := by simpa [hp] using h
      exact ⟨p.routine, by rw [routines, hp]; rfl, hlength⟩

theorem IsWellFormed.routines (hP : P.IsWellFormed tags u) :
    P.routines.IsSound (Relation.TransGen P.Calls) where
  sound hr := by
    obtain ⟨p, hp, rfl⟩ := routines_eq_some hr
    obtain ⟨hmem, _⟩ := find?_some hp
    have hwf := hP.procedures p hmem
    exact ⟨hwf.distinct, hwf.names, hwf.depths, hwf.sound,
      fun x hx => hP.body_unreserved hmem hx⟩
  admits hr x hx := by
    obtain ⟨p, hp, rfl⟩ := routines_eq_some hr
    exact admits_routines (hP.bodies p (find?_some hp).1 x hx)
  calls hr x hx b hb := by
    obtain ⟨p, hp, rfl⟩ := routines_eq_some hr
    obtain ⟨hmem, rfl⟩ := find?_some hp
    exact .single ⟨p, hmem, rfl, x, hx, hb⟩
  apart _ hr _ hown := by
    obtain ⟨p, hp, rfl⟩ := routines_eq_some hr
    cases hown

theorem comes_of_expand {n : Nat} {lines : Items}
    (h : P.expand n x = some lines) : P.routines.Comes n x lines := by
  refine expand_induction (Q := P.routines.Comes) (fun n k m => ?_) ?_ h
  · cases n <;> rfl
  · intro n k name arguments colon p parts hp hparts
    exact ⟨p.routine, parts, by rw [routines, hp]; rfl, hparts, rfl⟩

/-! ## Programs -/

theorem exists_met (hP : P.IsWellFormed tags u) : ∃ parts, P.met? = some parts.flatten ∧
      Forall₂ (fun x part => P.expand P.procedures.length x = some part) P.main parts := by
  obtain ⟨met, hmet⟩ := Option.isSome_iff_exists.mp (met?_isSome hP)
  obtain ⟨parts, hparts, rfl⟩ := Option.map_eq_some_iff.mp hmet
  exact ⟨parts, hmet, mapM_eq_some_iff.mp hparts⟩

theorem inlined_isPlain (hP : P.IsWellFormed tags u)
    (hun : ∀ x ∈ P.met?.getD [], isUnreserved x.2.written) : P.inlined.isPlain := by
  obtain ⟨parts, hmet, hparts⟩ := exists_met hP
  rw [inlined, Outline.isPlain, all_eq_true, hmet]
  rw [hmet] at hun
  rintro ⟨k, m⟩ hm
  obtain ⟨⟨j, i⟩, hi, heq⟩ := mem_filterMap.mp hm
  obtain ⟨part, hpart, hy⟩ := mem_flatten.mp hi
  obtain ⟨x, hx, hexpand⟩ := exists_of_forall₂ hparts hpart
  have hplain := expand_isPlain hP (hP.main x hx) hexpand _ hy
  cases i with
  | call name arguments colon => cases heq
  | markup m' =>
    cases heq
    rw [Bool.and_eq_true]
    exact ⟨hplain, hun _ hi⟩

theorem covered_met (hP : P.IsWellFormed tags u) : (trace (P.met?.getD [])).Covered := by
  obtain ⟨parts, hmet, hparts⟩ := exists_met hP
  rw [hmet]
  exact covered_flatten (hparts.imp fun _ _ h => expand_covered hP h)

theorem length_procedures_le (P : Program) (u : Text) : P.procedures.length ≤ (P.lines u).length := by
  have hlines := length_le_sum_of_one_le (P.procedures.map fun p => (p.lines u).length)
    (by simp [Procedure.lines])
  rw [length_map, ← length_flatMap] at hlines
  rw [lines, length_append]
  exact hlines.trans (Nat.le_add_right _ _)

theorem IsWellFormed.body_calm (hP : P.IsWellFormed tags u) (hp : p ∈ P.procedures) :
    ∀ x ∈ p.body, Calm (x.2.map Template.source).written := fun x hx =>
  Item.calm_source ((hP.procedures p hp).sound x hx)
    (hP.procedures p hp).names (hP.body_unreserved hp hx)

theorem IsWellFormed.main_calm (hP : P.IsWellFormed tags u) (hx : x ∈ P.main) :
    Item.ReadAs x.2.written x.2 := by
  have hline : u.times x.1 ++ x.2.written ∈ P.lines u := mem_append_right _ (mem_map.mpr ⟨x, hx, rfl⟩)
  exact Item.readAs_written (hP.main x hx).1
    (isUnreserved_of_isInfix (hP.unreserved _ hline) (suffix_append _ _).isInfix)

theorem IsWellFormed.line_signs (hP : P.IsWellFormed tags u) (hu : isUnit u) :
    ∀ l ∈ P.lines u, Unbroken l := by
  intro l hl
  rcases mem_append.mp hl with hl | hl
  · obtain ⟨p, hp, hl⟩ := mem_flatMap.mp hl
    exact Procedure.line_signs (hP.procedures p hp).isDefinable hu (hP.body_calm hp) l hl
  · obtain ⟨x, hx, rfl⟩ := mem_map.mp hl
    exact (Item.ReadAs.calm (hP.main_calm hx)).line_signs hu

theorem collects_start (tags : TagTable) (files : Files) (path u : Text) :
    Collects tags u [] (Document.start tags files path) := ⟨rfl, rfl, rfl, rfl, rfl, rfl, .inr ⟨rfl, rfl⟩,
    ⟨fun h => (by cases h), fun _ => rfl, fun h => (by cases h)⟩, fun _ _ h => (by cases h)⟩

theorem lines_collected (files : Files) (path : Text) (handle : Handler)
    (terminated : Bool) (hP : P.IsWellFormed tags u) (hu : isUnit u) :
    ∃ s xs, Collects tags u P.procedures s ∧
      Forall₂ IsEnded (P.main.map fun x => u.times x.1 ++ x.2.written) xs ∧
      (((Source.lines (sourceText (P.lines u) terminated)).map (·.2)).forM
        (line handle)).runFrom (Document.start tags files path) = (xs.forM (line handle)).runFrom s := by
  rw [source_lines (hP.line_signs hu)]
  obtain ⟨ys, xs, hcut, hys, hxs⟩ := forall₂_append_left (forall₂_ended (P.lines u) terminated)
  have hheader : ∀ p ∈ P.procedures, isUnreserved p.header := fun p hp =>
    hP.unreserved _ (mem_append_left _ (mem_flatMap.mpr ⟨p, hp, mem_cons_self⟩))
  obtain ⟨s, hrun, hs⟩ := (collects_start tags files path u).procedures handle hu
    (fun p hp => ⟨(hP.procedures p hp).isDefinable, hP.free p hp, hheader p hp, hP.body_calm hp⟩)
    (by rw [nil_append]; exact hP.distinct) hys
  refine ⟨s, xs, hs, hxs, ?_⟩
  rw [hcut, Action.runFrom_forM_append, hrun]

end Program

namespace Document
variable {tags : TagTable} {files : Files} {path u : Text}

/-- The output of a program is what the lines that come up leave on the page. -/
theorem compile_program (P : Program) {terminated : Bool} (hu : isUnit u)
    (hread : HasFile files path (sourceText (P.lines u) terminated))
    (hP : P.IsWellFormed tags u) (hun : ∀ x ∈ P.met?.getD [], isUnreserved x.2.written)
    (hc : (trace (P.met?.getD [])).Climbs 0) :
    Renders tags u files path (({} : Page).follow tags u (trace (P.met?.getD []))) := by
  obtain ⟨n, hn, hhandle⟩ := handle_eq tags hread
  obtain ⟨s, xs, hs, hxs, hrun⟩ := lines_collected files path (lineTo n) terminated
    hP hu
  obtain ⟨parts, hmet, hparts⟩ := exists_met hP
  rw [hmet] at hun hc ⊢
  have hrun' : (((Source.lines (sourceText (P.lines u) terminated)).map (·.2)).forM
      (handle tags files path)).runFrom (start tags files path) =
      (xs.forM (handle tags files path)).runFrom s := by
    rw [hhandle]
    exact hrun
  have hlength : P.procedures.length ≤ n := by
    have hlines := length_le_sourceText (fun l hl => (hP.line_signs hu l hl).1) terminated
    have hprocedures := P.length_procedures_le u
    omega
  have hdoes : Does tags u (Keeping s.store (fun _ => True) []) (xs.forM (handle tags files path))
      (trace parts.flatten) := by
    have htrace : trace parts.flatten = (parts.map trace).flatten := map_flatten
    rw [htrace, hhandle]
    refine Does.forM (forall₂_map_right_iff.mpr ((forall₂_join (forall₂_map_left_iff.mp hxs)
      (forall₂_mem hparts)).imp fun x part h => ?_))
    obtain ⟨a, ha, ⟨e, he, rfl⟩, _, hpart, hexpand⟩ := h
    rw [append_assoc]
    exact (comes_of_expand hexpand).does hP.routines hs.holds hP.acyclic
      (fun hab hbc => hab.trans hbc) hu (fun _ _ _ _ => trivial)
      ⟨(hP.main a ha).1, admits_routines (hP.main a ha).2⟩
      (fun y hy => hun y (mem_flatten.mpr ⟨part, hpart, hy⟩))
      (fun x hx => absurd hx not_mem_nil) hlength (hP.main_calm ha) he
  cases hmain : P.main with
  | nil =>
    rw [hmain] at hxs hparts
    cases hxs
    cases hparts
    have hclose := closeAll_run (handle tags files path) hs.idle (indents_of_isUnit hu)
    rw [← closeAll_ends_definition hs.idle] at hclose
    have hcompile := compile_of_ok hread hrun' hclose
    have hblank : s.endDefinition.page = {} := hs.page
    rw [hblank] at hcompile
    exact hcompile
  | cons x main =>
    -- The first line of the main part is at the left edge, and ends the last definition.
    have hfirst : (xs.forM (handle tags files path)).runFrom s =
        (xs.forM (handle tags files path)).runFrom s.endDefinition := by
      have hx : x ∈ P.main := by simp [hmain]
      rw [hmain] at hxs hparts
      rcases hxs with _ | ⟨⟨e, he, rfl⟩, hxs⟩
      rcases hparts with _ | ⟨hexpand, _⟩
      obtain ⟨rest, rfl⟩ := head?_eq_some_iff.mp (expand_head? hexpand)
      have hdepth : x.1 = 0 := Nat.le_zero.mp hc.1
      have hends := line_ends_definition (lineTo n) hs.idle
        (Item.ReadAs.calm (hP.main_calm hx)) hu he
      rw [Action.runFrom_forM_cons, Action.runFrom_forM_cons, hhandle]
      beta_reduce
      rw [hdepth, append_assoc, lineTo]
      rw [sourceLine] at hends
      rw [hends]
    exact compile_of_does _ _ hu hread (hrun'.trans hfirst) hs.idle (.refl fun _ _ => trivial) hs.page hc hdoes

/-- Calls mean inlining: the expansion of a program comes to an end, and unless a reserved word comes
up in it, the program compiles if and only if the document with every call replaced does, and then
to the same output. -/
theorem compile_program_eq_inlined (tags : TagTable) (u : Text) (P : Program)
    (terminated terminated' : Bool) (files files' : Files) (path path' : Text)
    (hread : HasFile files path (sourceText (P.lines u) terminated))
    (hread' : HasFile files' path' (sourceText (P.inlined.lines u) terminated'))
    (hu : isUnit u = true) (hP : P.IsWellFormed tags u)
    (hun : ∀ x ∈ P.met?.getD [], isUnreserved x.2.written = true)
    (hw : WellIndented P.inlined.depths) :
    P.met?.isSome = true ∧
      ((compile tags files path).fault = none ↔ (compile tags files' path').fault = none) ∧
      ((compile tags files path).fault = none →
        (compile tags files path).output = (compile tags files' path').output) := by
  refine ⟨Program.met?_isSome hP, ?_⟩
  have hcovered := Program.covered_met hP
  have hdense : (Program.trace (P.met?.getD [])).dense = P.inlined.trace := Program.dense_trace _
  have hclimbs : (Program.trace (P.met?.getD [])).Climbs 0 := by
    rw [Trace.climbs_dense hcovered, hdense]
    exact Outline.climbs_trace hw
  have hprogram := compile_program P hu hread hP hun hclimbs
  have hdocument := compile_outline tags hu hread' (Program.inlined_isPlain hP hun) hw
  have hblank : ({} : Page).Balanced := ⟨⟨Int.le_refl _, fun _ => rfl⟩, rfl⟩
  rw [hblank.follow_dense hclimbs hcovered, hdense] at hprogram
  cases hp : ({} : Page).follow tags u P.inlined.trace with
  | error f =>
    rw [hp] at hprogram hdocument
    obtain ⟨g, hg⟩ := hprogram
    obtain ⟨g', hg'⟩ := hdocument
    rw [hg, hg']
    simp
  | ok p =>
    rw [hp] at hprogram hdocument
    rw [hprogram.1, hdocument.1, hprogram.2, hdocument.2]
    exact ⟨Iff.rfl, fun _ => rfl⟩

def sampleProgram : Program where
  procedures :=
    [⟨"cell", some ["w", "t"], true,
        [(1, .markup (.element "2d" (some [("width", [.ref "w"])]) false)),
          (2, .markup (.text ([.char 'n', .char '-', .ref "t"])))]⟩,
      ⟨"row", some ["k"], true,
        [(1, .markup (.element "tr" none true)),
          (2, .call "cell" (some [[.char '4'], [.char 'x', .char '_', .ref "k"]]) false),
          (2, .call "rule" none true)]⟩,
      ⟨"rule", none, false, [(1, .markup (.element "hr" none false))]⟩]
  main :=
    [(0, .markup (.element "table" none true)), (1, .call "row" (some ["a"]) true),
      (1, .call "row" (some ["b"]) false), (0, .call "rule" (some []) false)]

theorem sampleProgram_isWellFormed : sampleProgram.IsWellFormed sampleTags "\t" where
  distinct := by decide
  procedures := by decide +kernel
  free := by decide
  bodies := by decide
  main := by decide
  unreserved := by decide +kernel
  acyclic := acyclic_of_rank (fun name => if name = "row" then 1 else 0) (by decide)

theorem compile_program_eq_inlined_sample :
    (compile sampleTags [("a", sourceText (sampleProgram.lines "\t") true)]
        "a").Writes (compile sampleTags [("b", sourceText (sampleProgram.inlined.lines "\t") false)]
          "b").output := by
  have h := compile_program_eq_inlined sampleTags "\t" sampleProgram true false
    [("a", sourceText (sampleProgram.lines "\t") true)]
    [("b", sourceText (sampleProgram.inlined.lines "\t") false)] "a" "b"
    (by decide +kernel) (by decide +kernel) (by decide) sampleProgram_isWellFormed (by decide +kernel)
    (by decide +kernel)
  have hdocument : (compile sampleTags
      [("b", sourceText (sampleProgram.inlined.lines "\t") false)]
      "b").fault = none := by decide +kernel
  exact ⟨h.2.1.mpr hdocument, h.2.2 (h.2.1.mpr hdocument)⟩

def splitWord : Program where
  procedures :=
    [⟨"inner", some ["x"], true, [(1, .markup (.element "p" none false))]⟩,
      ⟨"outer", some ["y"], true,
        [(1, .call "inner" (some ["verb".toList.map .char ++ [.ref "y"]]) false)]⟩]
  main := [(0, .call "outer" (some ["atim"]) false)]

theorem splitWord_isWellFormed : splitWord.IsWellFormed sampleTags "\t" where
  distinct := by decide
  procedures := by decide +kernel
  free := by decide
  bodies := by decide
  main := by decide
  unreserved := by decide +kernel
  acyclic := acyclic_of_rank (fun name => if name = "outer" then 1 else 0) (by decide)

/-- It is not enough that the program and the document with every call replaced have no reserved
words. -/
theorem splitWord_not_inlined :
    splitWord.IsWellFormed sampleTags "\t" ∧ splitWord.inlined.isPlain = true ∧
      WellIndented splitWord.inlined.depths ∧
      (compile sampleTags [("b", sourceText (splitWord.inlined.lines "\t") true)]
        "b").fault = none ∧
      (compile sampleTags [("a", sourceText (splitWord.lines "\t") true)]
        "a").fault = some .outOfRange :=
  ⟨splitWord_isWellFormed, by decide +kernel, by decide +kernel, by decide +kernel, by decide +kernel⟩

end Document
end OutlineMarkup
