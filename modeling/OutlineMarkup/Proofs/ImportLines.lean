import Mathlib.Data.Finset.Card
import OutlineMarkup.Proofs.Background
import OutlineMarkup.Proofs.Documents

/-!
# Lines that import

Where nothing is known but a grammar and files, a line takes one of three courses: it is settled on its
own, it ends a verbatim block and is handled once more, or it imports a module. To speak of the
modules apart from the lines that are handled again, the handling of a line is written with one
argument for each; with the same handling of lines for both it is the handling of lines itself.
-/

namespace OutlineMarkup
open List Text Action Assignment Library

namespace Compile

/-! ## Lines and modules apart -/

def ifMissing (x : Compile Unit) : Fault → Compile Unit
  | .missingFile => x
  | f => throw f

/-- Imports a module, where modules are compiled by `compile`. -/
def importModuleBy (compile : Text → Compile Unit) (name : Text) : Compile Unit := do
  if (← get).imported.contains name then return
  tryCatch (compile name) <| ifMissing <| inLibrary <| tryCatch (compile name) <|
    ifMissing (throw (.rejected (.missingModule name)))

def importLineBy (compile : Text → Compile Unit) (line : Text) : Compile Unit :=
  match line.words with
  | [first, name] =>
    if first == "import" then importModuleBy compile name
    else throw (.rejected (.importForm line.trim))
  | _ => throw (.rejected (.importForm line.trim))

def declarationLineBy (compile : Text → Compile Unit) (depth : Nat) (line : Text) :
    Compile (Option Text) := do
  let tag := line.trim
  if tag.has Assignment.sign then
    assign tag
    return none
  else if Assignment.isCompound line then
    let target ← assignCompound line
    return (← get).globals.get? target
  else if "import ".toList.isPrefixOf line then
    importLineBy compile line
    return none
  else if line.has "TemplateEngine" then
    declareEngine tag
    return none
  else if tag.hasChar '.' then dottedLine depth line
  else if line == endMark then return none
  else return some tag

def plainLineBy (handle compile : Text → Compile Unit) (depth : Nat) (space line : Text) :
    Compile Unit := do
  let s ← get
  if declaresVerbatim line.trim then declareVerbatim line.trim
  else if !s.isDefining && (!s.loops.isEmpty || isLoopStart line.trim) then loopLine handle line
  else
    if s.isDefining || isMethodStart line then
      if !(← methodLine handle line) then return
    match ← declarationLineBy compile depth line with
    | none => return
    | some tag => markupLine handle depth space tag

/-- Handles a line; lines that it leads to are handled by `handle`, and modules that it imports are
compiled by `compile`. -/
def lineBy (handle compile : Text → Compile Unit) (source : Text) : Compile Unit := do
  let depth ← depthOf source
  let space ← blanks depth
  let tag := source.trim
  let s ← get
  let named := s.verbatims.has (blockName tag)
  if s.block.isSome || named then
    if !s.loops.isEmpty && named then loopLine handle source
    else
      let ended ← verbatimLine handle source
      if ended || !(← get).isDefining then return
      plainLineBy handle compile depth space (← Shorthand.expand source)
  else if tag.isEmpty || tag.head? == some '#' then return
  else plainLineBy handle compile depth space (← Shorthand.expand source)

theorem line_eq_lineBy (handle : Handler) : line handle = lineBy handle (compileModule handle) := rfl

variable {handle compile : Handler} {s t : Session} {source : Text}

theorem plainLineBy_eq_plainLine (h : "import ".toList.isPrefixOf source = false)
    (handle compile : Handler) (depth : Nat) (space : Text) :
    plainLineBy handle compile depth space source = plainLine handle depth space source := by
  have hdeclaration : declarationLineBy compile depth source = declarationLine handle depth source := by
    simp only [declarationLineBy, declarationLine, h, Bool.false_eq_true, if_false]
  unfold plainLineBy plainLine
  rewrite [hdeclaration]
  rfl

/-! ## Courses -/

/-- Nothing is being collected but perhaps a verbatim block, and there are neither variables nor
methods. -/
structure Bare (s : Session) : Prop where
  globals : s.globals = []
  methods : s.methods = []
  loops : s.loops = []
  defining : s.defining = none

theorem Bare.of_background (h : Bare s) (ht : t.background = s.background) : Bare t := by
  simp only [Session.background, Background.mk.injEq] at ht
  obtain ⟨_, _, _, hg, hd, hm, hl, _⟩ := ht
  exact ⟨hg.trans h.globals, hm.trans h.methods, hl.trans h.loops, hd.trans h.defining⟩

/-- What handling a line comes to, whatever handles the lines and compiles the modules that it leads
to. -/
inductive Course (names : Finset Text) (source : Text) (s : Session)
    (x : (handle compile : Text → Compile Unit) → Compile Unit) : Prop
  | settled {r : Except Fault Unit} {t : Session} (hr : FailsMildly r)
      (ht : t.background = s.background) (hrun : ∀ handle compile, (x handle compile).runFrom s = (r, t))
  | again {t : Session} (hs : s.block.isSome = true) (hblock : t.block = none)
      (ht : t.background = s.background)
      (hrun : ∀ handle compile, (x handle compile).runFrom s = (handle source).runFrom t)
  | imports {name : Text} {t : Session} (hname : name ∈ names) (ht : t.background = s.background)
      (hrun : ∀ handle compile, (x handle compile).runFrom s = (importModuleBy compile name).runFrom t)

namespace Course
variable {names : Finset Text} {x y : (handle compile : Handler) → Compile Unit}

theorem of_tame {z : Compile Unit} (hz : Tame s.background z)
    (h : ∀ handle compile, (x handle compile).runFrom s = z.runFrom s) : Course names source s x :=
  .settled (hz s rfl).2 (hz s rfl).1 h

theorem of_run (h : Course names source t y) (ht : t.background = s.background) (hblock : t.block = s.block)
    (hrun : ∀ handle compile, (x handle compile).runFrom s = (y handle compile).runFrom t) :
    Course names source s x := by
  cases h with
  | settled hr hb hy => exact .settled hr (hb.trans ht) fun handle compile => (hrun _ _).trans (hy _ _)
  | again hs hb hback hy =>
    exact .again (by rw [← hblock, hs]) hb (hback.trans ht) fun handle compile => (hrun _ _).trans (hy _ _)
  | imports hname hb hy =>
    exact .imports hname (hb.trans ht) fun handle compile => (hrun _ _).trans (hy _ _)

end Course

theorem blanks_state (level : Int) : ((blanks level).runFrom s).2 = s := by
  rw [blanks, runFrom_bind_ok (runFrom_get s), runFrom_liftM]

theorem blanks_isBlank {level : Int} {space : Text} (hs : s.background.blankUnit)
    (h : (blanks level).runFrom s = (.ok space, t)) : ∀ c ∈ space, isBlank c := by
  rw [blanks, runFrom_bind_ok (runFrom_get s), runFrom_liftM, Indentation.blanks] at h
  intro c hc
  split at h
  · cases h
    cases hc
  · split at h
    · cases h
    · rename_i u hu
      cases h
      simp only [Session.background, hu, Option.all_some, all_eq_true] at hs
      exact hs c (mem_times hc)

/-- A line that is left out wherever it stands outside verbatim blocks. -/
def isIgnored (source : Text) : Bool := source.trim.isEmpty || source.trim.head? == some '#'

/-- What handling a line comes to outside of loops and methods: it is settled on its own, ends a
verbatim block and is handled once more, or is a plain line. -/
inductive LineCase (E : Fault → Prop) (source : Text) (s : Session) : Prop
  | settled {r : Except Fault Unit} {t : Session} (hr : ∀ f, r = .error f → E f)
      (ht : t.background = s.background)
      (hrun : ∀ handle compile, (lineBy handle compile source).runFrom s = (r, t))
  | again {t : Session} (hs : s.block.isSome = true) (hblock : t.block = none)
      (ht : t.background = s.background)
      (hrun : ∀ handle compile, (lineBy handle compile source).runFrom s = (handle source).runFrom t)
  | plain {depth : Nat} {space : Text} {t : Session} (hsource : isIgnored source = false)
      (hblock : t.block = s.block) (ht : t.background = s.background)
      (hspace : s.background.blankUnit = true → ∀ c ∈ space, Text.isBlank c = true)
      (hrun : ∀ handle compile, (lineBy handle compile source).runFrom s = (do
        plainLineBy handle compile depth space (← Shorthand.expand source) : Compile Unit).runFrom t)

theorem lineBy_cases {E : Fault → Prop} (hE : ∀ f, f.isMild → E f) (hloops : s.loops = [])
    (hd : s.defining = none) (hadd : ∀ line, Retains E s.background (addToBlock line)) (source : Text) :
    LineCase E source s := by
  rcases Retains.cases (depthOf_tame source) with ⟨f, t, hdepth, hf, hb⟩ | ⟨depth, t, hdepth, hb⟩
  · refine .settled (r := .error f) (fun g hg => ?_) hb fun handle compile => ?_
    · cases hg
      exact hE f hf
    · rw [lineBy, runFrom_bind_error hdepth]
  have hblock : t.block = s.block := by
    have := depthOf_block (s := s) source
    rwa [hdepth] at this
  have hstate := blanks_state (s := t) (depth : Int)
  rcases Retains.cases (blanks_tame (depth : Int)) with ⟨f, t', hspace, hf, hb'⟩ | ⟨space, t', hspace, -⟩
  · refine .settled (r := .error f) (fun g hg => ?_) (hb'.trans hb) fun handle compile => ?_
    · cases hg
      exact hE f hf
    · rw [lineBy, runFrom_bind_ok hdepth, runFrom_bind_error hspace]
  rw [hspace] at hstate
  obtain rfl : t' = t := hstate
  have hempty : t'.loops.isEmpty := by
    have : t'.loops = s.loops := congrArg Background.loops hb
    rw [this, hloops]
    rfl
  have hdefining : ∀ t : Session, t.background = s.background → t.defining = none := fun t hb =>
    (congrArg Background.defining hb).trans hd
  cases hmeets : t'.block.isSome || t'.verbatims.has (blockName source.trim) with
  | true =>
    have hcases := verbatimLine_cases hE (hdefining t' hb) (hb.symm ▸ hadd) source
    rcases hcases with ⟨r, t, hr, hb', hrun⟩ | ⟨hopen, t, hnone, hb', hrun⟩
    · have hdef : t.isDefining = false := by
        rw [Session.isDefining, hdefining t (hb'.trans hb)]
        rfl
      refine .settled (r := r.map fun _ => ()) (t := t) (fun f hf => ?_) (hb'.trans hb) fun handle compile => ?_
      · cases r with
        | error g =>
          cases hf
          exact hr _ rfl
        | ok ended => cases hf
      · simp only [lineBy, runFrom_bind, hdepth, hspace, runFrom_get, hmeets, hempty, hrun,
          if_true, Bool.not_true, Bool.false_and, Bool.false_eq_true, if_false]
        cases r with
        | error f => rfl
        | ok ended =>
          simp only [hdef, Bool.not_false, Bool.or_true, if_true, runFrom_pure]
          rfl
    · refine .again (by rw [← hblock, hopen]) hnone (hb'.trans hb) fun handle compile => ?_
      simp only [lineBy, runFrom_bind, hdepth, hspace, runFrom_get, hmeets, hempty, hrun,
        if_true, Bool.not_true, Bool.false_and, Bool.false_eq_true, if_false, runFrom_pure]
      rcases (handle source).runFrom t with ⟨_ | _, t'⟩ <;> rfl
  | false =>
    cases hignored : source.trim.isEmpty || source.trim.head? == some '#' with
    | true =>
      refine .settled (r := .ok ()) (fun f hf => by cases hf) hb fun handle compile => ?_
      simp only [lineBy, runFrom_bind, hdepth, hspace, runFrom_get, hmeets, hignored, if_true,
        Bool.false_eq_true, if_false, runFrom_pure]
    | false =>
      refine @LineCase.plain E source s depth space t' hignored hblock hb (fun hunit => ?_)
        fun handle compile => ?_
      · exact blanks_isBlank (by rw [hb]; exact hunit) hspace
      · simp only [lineBy, runFrom_bind, hdepth, hspace, runFrom_get, hmeets, hignored,
          Bool.false_eq_true, if_false]

/-- A line that is left out, or takes one of the courses outside verbatim blocks. -/
structure Ordinary (names : Finset Text) (source : Text) : Prop where
  expand : isIgnored source = false → Shorthand.expand source = .ok source
  course : isIgnored source = false → ∀ (t : Session) (depth : Nat) (space : Text), Bare t →
    Course names source t fun handle compile => plainLineBy handle compile depth space source

theorem lineBy_course {names : Finset Text} (hs : Bare s) (hl : Ordinary names source) :
    Course names source s fun handle compile => lineBy handle compile source := by
  have hadd : ∀ line, Tame s.background (addToBlock line) := addToBlock_tame hs.globals
  cases lineBy_cases (fun _ hf => hf) hs.loops hs.defining hadd source with
  | settled hr ht hrun => exact .settled hr ht hrun
  | again hopen hblock ht hrun => exact .again hopen hblock ht hrun
  | @plain depth space t hsource hblock ht _ hrun =>
    refine (hl.course hsource t depth space (hs.of_background ht)).of_run ht hblock fun handle compile => ?_
    rw [hrun, hl.expand hsource]
    rfl

/-! ## Ordinary lines -/

theorem plainLineBy_run (hloops : s.loops = []) (hd : s.defining = none)
    (hverbatim : declaresVerbatim source.trim = false) (hloop : isLoopStart source.trim = false)
    (hmethod : isMethodStart source = false) (handle compile : Handler) (depth : Nat) (space : Text) :
    (plainLineBy handle compile depth space source).runFrom s = (do
      match ← declarationLineBy compile depth source with
      | none => return
      | some tag => markupLine handle depth space tag : Compile Unit).runFrom s := by
  have hempty : s.loops.isEmpty := by rw [hloops]; rfl
  have hdef := Session.isDefining_eq_false hd
  simp only [plainLineBy, runFrom_bind, runFrom_get, hverbatim, hloop, hmethod, hempty, hdef,
    Bool.not_true, Bool.not_false, Bool.or_self, Bool.and_false, Bool.false_eq_true, if_false]

theorem plainLineBy_verbatim (h : declaresVerbatim source.trim)
    (handle compile : Handler) (depth : Nat) (space : Text) :
    (plainLineBy handle compile depth space source).runFrom s = (declareVerbatim source.trim).runFrom s := by
  simp [plainLineBy, runFrom_bind, h]

variable {names : Finset Text}

/-- A name that an import line may give: no blanks, and no sign that means anything else. -/
def isModuleName (name : Text) : Bool :=
  !name.isEmpty && name.all fun c => !Text.isBlank c && !List.contains ['[', '=', '\\'] c

theorem isModuleName_iff (name : Text) : isModuleName name ↔
    name ≠ [] ∧ ∀ c ∈ name, isBlank c = false ∧ c ≠ '[' ∧ c ≠ '=' ∧ c ≠ '\\' := by
  simp [isModuleName]

def importText (name : Text) : Text := "import " ++ name

section ImportText
variable {name e : Text} (hname : isModuleName name) (he : LineEnd e)

theorem importText_start {p : Text} (hp : p.head? ≠ some 'i') (hne : p ≠ []) (rest : Text) :
    p.isPrefixOf (importText name ++ rest) = false := by
  obtain ⟨c, q, rfl⟩ := exists_cons_of_ne_nil hne
  have hc : (c == 'i') = false := beq_eq_false_iff_ne.mpr fun h => hp (by rw [h]; rfl)
  change (c == 'i' && _) = false
  rw [hc, Bool.false_and]

include he in
theorem importText_not_mem {c : Char} (hc : c ∉ "import \n".toList) (hn : c ∉ name) :
    c ∉ importText name ++ e := by
  intro hm
  rcases mem_append.mp hm with hm | hm
  · rcases mem_append.mp hm with hm | hm
    · exact hc (mem_append_left ['\n'] hm)
    · exact hn hm
  · refine he.not_mem ?_ hm
    rintro rfl
    exact hc (by decide)

include hname

theorem importText_solid : Solid (importText name) := by
  obtain ⟨hne, hchars⟩ := (isModuleName_iff name).mp hname
  obtain ⟨c, hc, hb⟩ := (solid_of_forall hne fun c hc => (hchars c hc).1).last
  refine ⟨⟨'i', rfl, rfl⟩, ⟨c, ?_, hb⟩⟩
  have hlast : (importText name).getLast? = name.getLast? := getLast?_append_of_ne_nil _ hne
  rw [hlast, hc]

include he

theorem importText_trim : (importText name ++ e).trim = importText name :=
  trim_append_solid (a := []) (by simp) he.isBlank (importText_solid hname)

theorem importText_words : (importText name ++ e).words = ["import".toList, name] := by
  obtain ⟨hne, hchars⟩ := (isModuleName_iff name).mp hname
  have hblank : ∀ c ∈ name, isBlank c = false := fun c hc => (hchars c hc).1
  have hempty : name.isEmpty = false := isEmpty_eq_false_iff.mpr hne
  have hcut : importText name ++ e = "import" ++ ' ' :: (name ++ e) := rfl
  rw [words, hcut, pieces_append_cons (by decide) rfl]
  rcases he with rfl | rfl
  · rw [append_nil, pieces_of_forall_not hblank]
    simp [hempty]
  · rw [pieces_append_cons hblank rfl]
    simp [hempty, pieces]

theorem importText_isLoopStart : isLoopStart (importText name ++ e).trim = false := by
  have hstart : "for ".toList.isPrefixOf (importText name ++ []) = false :=
    importText_start (by decide) (by decide) []
  rw [importText_trim hname he, isLoopStart]
  simpa using hstart

omit hname he in
theorem importText_isMethodStart : isMethodStart (importText name ++ e) = false :=
  importText_start (by decide) (by decide) e

theorem plainLineBy_import (hloops : s.loops = []) (hd : s.defining = none)
    (hverbatim : declaresVerbatim (importText name) = false) (handle compile : Handler)
    (depth : Nat) (space : Text) :
    (plainLineBy handle compile depth space (importText name ++ e)).runFrom s =
      (importModuleBy compile name).runFrom s := by
  obtain ⟨-, hchars⟩ := (isModuleName_iff name).mp hname
  have htrim := importText_trim hname he
  have hequals : '=' ∉ importText name ++ e :=
    importText_not_mem he (by decide) fun hm => (hchars _ hm).2.2.1 rfl
  have hassign : (importText name ++ e).trim.has sign = false := by
    refine has_eq_false_of_not_mem (c := '=') (by decide) fun hm => hequals ?_
    rw [htrim] at hm
    exact mem_append_left _ hm
  have hcompound : isCompound (importText name ++ e) = false := by
    refine any_eq_false.mpr fun op hop => ?_
    refine (Bool.eq_false_iff.mp (has_eq_false_of_not_mem (c := '=') ?_ hequals))
    revert op
    decide
  have himport : "import ".toList.isPrefixOf (importText name ++ e) :=
    isPrefixOf_iff_prefix.mpr ⟨name ++ e, rfl⟩
  rw [plainLineBy_run hloops hd (by rwa [htrim]) (importText_isLoopStart hname he) importText_isMethodStart]
  simp only [declarationLineBy, hassign, hcompound, himport, importLineBy, importText_words hname he,
    beq_self_eq_true, runFrom_bind, Bool.false_eq_true, if_false, if_true]
  rcases (importModuleBy compile name).runFrom s with ⟨_ | _, t⟩ <;> rfl

theorem importText_expand : Shorthand.expand (importText name ++ e) = .ok (importText name ++ e) := by
  obtain ⟨-, hchars⟩ := (isModuleName_iff name).mp hname
  exact shorthand_eq_self (importText_not_mem he (by decide) fun hm => (hchars _ hm).2.1 rfl)

theorem ordinary_import (hmem : name ∈ names) : Ordinary names (importText name ++ e) := by
  refine ⟨fun _ => importText_expand hname he, fun _ t depth space ht => ?_⟩
  cases hverbatim : declaresVerbatim (importText name) with
  | true =>
    refine .of_tame (declareVerbatim_tame _) fun _ _ => plainLineBy_verbatim ?_ _ _ _ _
    rwa [importText_trim hname he]
  | false =>
    exact .imports hmem rfl fun handle compile =>
      plainLineBy_import hname he ht.loops ht.defining hverbatim handle compile depth space

end ImportText

theorem ordinary_markup {tag e u : Text} {k : Nat} {m : Markup Text} (h : Spells tag m)
    (hm : m.isPlain) (hu : isUnit u) (he : LineEnd e) : Ordinary names (sourceLine u k tag e) := by
  have hcalm := h.calm
  refine ⟨fun _ => hcalm.expand_sourceLine hu he, fun _ t depth space ht => ?_⟩
  have hrun : ∀ handle compile : Handler,
      (plainLineBy handle compile depth space (sourceLine u k tag e)).runFrom t =
        (markupLine handle depth space tag).runFrom t := by
    intro handle compile
    rw [plainLineBy_eq_plainLine (hcalm.isImport_sourceLine hu he),
      plainLine_calm hcalm hu he ht.loops ht.defining]
  cases m with
  | text content =>
    refine .of_tame (writeLine_tame depth space (content ++ ['\n']) none none) fun handle compile => ?_
    rw [hrun, markupLine_text h]
  | element name attributes colon =>
    have hd : Names tag (Markup.definition name attributes) := h
    have hfree : t.methods.get? (Markup.definition name attributes).name = none := by rw [ht.methods]; rfl
    have htame : Tame t.background (definitionLine (fun _ => pure ()) depth space
        (Markup.definition name attributes)) := definitionLine_tame _ _ _ hfree
    refine .of_tame htame fun handle compile => ?_
    rw [hrun, markupLine_definition hd, definitionLine_element hfree, definitionLine_element hfree]

theorem ordinary_endMark : Ordinary names endMark := by
  refine ⟨fun _ => shorthand_eq_self (by decide), fun _ t depth space ht => ?_⟩
  refine .settled (.ok ()) rfl (t := t) fun handle compile => ?_
  obtain ⟨hsign, hcompound, himport, hengine, hpoint⟩ := endMark_signs
  rw [plainLineBy_run ht.loops ht.defining (by decide) (by decide) (by decide)]
  simp only [declarationLineBy, hsign, hcompound, himport, hengine, hpoint, beq_self_eq_true,
    runFrom_bind, Bool.false_eq_true, if_false, if_true, runFrom_pure]

/-! ## Shipped modules -/

/-- No equals sign is part of a sign that assigns. -/
def assignsNothing : Text → Bool
  | a :: b :: s =>
    (b != '=' || !List.contains [':', '+', '-', '*', '/'] a) && assignsNothing (b :: s)
  | _ => true

variable {l : Text} {ls : List String}

theorem has_eq_false_of_assignsNothing {c : Char} (h : assignsNothing l)
    (hc : c ∈ [':', '+', '-', '*', '/']) : l.has [c, '='] = false := by
  rw [has_eq_false_iff]
  rintro ⟨a, b, rfl⟩
  induction a with
  | nil =>
    have hsign : contains [':', '+', '-', '*', '/'] c := contains_iff_mem.mpr hc
    rw [nil_append, cons_append, cons_append, assignsNothing, hsign] at h
    cases h
  | cons d a ih =>
    refine ih ?_
    cases a with
    | nil | cons d' a => exact (Bool.and_eq_true_iff.mp h).2

/-- A line that declares a verbatim block, a template engine or a method of one, and nothing else. -/
def isDeclaration (l : Text) : Bool :=
  l.head?.any (!Text.isBlank ·) && l.getLast?.any (!Text.isBlank ·) && !l.hasChar '[' &&
    !isLoopStart l && !isMethodStart l && !"import ".toList.isPrefixOf l && assignsNothing l &&
    !l.has Call.expressionMark &&
    ((l.hasChar '.' && (l.has "create(" || l.has ".append(")) || l.has "TemplateEngine" ||
      declaresVerbatim l)

theorem ordinary_declaration (h : isDeclaration l) : Ordinary names (l ++ ['\n']) := by
  simp only [isDeclaration, Bool.and_eq_true, Bool.or_eq_true, Bool.not_eq_true', Option.any_eq_true] at h
  obtain ⟨⟨⟨⟨⟨⟨⟨⟨hfirst, hlast⟩, hbracket⟩, hloop⟩, hmethod⟩, himport⟩, hsigns⟩, hmark⟩, h⟩ := h
  have hsolid : Solid l := ⟨hfirst, hlast⟩
  have hblank : ∀ c ∈ ['\n'], isBlank c := by decide
  have htrim : (l ++ ['\n']).trim = l := trim_append_solid (a := []) (by simp) hblank hsolid
  have hstart : ∀ p : Text, '\n' ∉ p → p.isPrefixOf l = false → p.isPrefixOf (l ++ ['\n']) = false := by
    intro p hp h
    rw [← Bool.not_eq_true, isPrefixOf_iff_prefix, prefix_concat_iff]
    rintro (rfl | hpart)
    · exact hp (by simp)
    · exact Bool.noConfusion <| h.symm.trans <| isPrefixOf_iff_prefix.mpr hpart
  have hhas : ∀ part : Text, part ≠ [] → '\n' ∉ part → l.has part = false →
      (l ++ ['\n']).has part = false := by
    intro part hne hp h
    rw [has_eq_false_iff] at h ⊢
    refine fun hi => h (infix_of_infix_append_right hne (fun c hc hm => hp ?_) hi)
    rwa [← mem_singleton.mp hm]
  have hcompound : ∀ l : Text, (∀ c ∈ ['+', '-', '*', '/'], l.has [c, '='] = false) →
      isCompound l = false := by
    intro l hl
    simp [isCompound, operators, hl]
  have hsign : l.has sign = false := has_eq_false_of_assignsNothing hsigns (by decide)
  have hassign : ∀ c ∈ ['+', '-', '*', '/'], l.has [c, '='] = false := fun c hc =>
    has_eq_false_of_assignsNothing hsigns (mem_cons_of_mem _ hc)
  have hnoCompound : isCompound (l ++ ['\n']) = false := by
    refine hcompound _ fun c hc => hhas _ (by simp) ?_ (hassign c hc)
    revert c
    decide
  have hbracket' : '[' ∉ l ++ ['\n'] := by
    simpa using (hasChar_eq_false_iff _ _).mp hbracket
  refine ⟨fun _ => shorthand_eq_self hbracket', fun _ t depth space ht => ?_⟩
  cases hverbatim : declaresVerbatim (l ++ ['\n']).trim with
  | true => exact .of_tame (declareVerbatim_tame _) fun _ _ => plainLineBy_verbatim hverbatim _ _ _ _
  | false =>
    have hrun : ∀ (handle compile : Handler),
        (plainLineBy handle compile depth space (l ++ ['\n'])).runFrom t = _ := fun handle compile =>
      plainLineBy_run ht.loops ht.defining hverbatim (by rw [htrim]; exact hloop) (hstart _ (by decide) hmethod)
        handle compile depth space
    cases hengine : (l ++ ['\n']).has "TemplateEngine" with
    | true =>
      refine .of_tame (declareEngine_tame l) fun handle compile => ?_
      rw [hrun]
      simp only [declarationLineBy, htrim, hsign, hnoCompound, hstart _ (by decide) himport, hengine,
        runFrom_bind, Bool.false_eq_true, if_false, if_true]
      rcases (declareEngine l).runFrom t with ⟨_ | _, t'⟩ <;> rfl
    | false =>
      rw [htrim] at hverbatim
      have hengine' : l.has "TemplateEngine" = false :=
        has_eq_false_of_isInfix hengine (prefix_append l ['\n']).isInfix
      rw [hverbatim, hengine'] at h
      obtain (⟨hpoint, hdefines⟩ | h) | h := h
      · have hdefines' : (l.has ".append(" || l.has "create(") := by
          rw [Bool.or_eq_true, or_comm]
          exact hdefines
        refine .of_tame (defineEngineMethod_tame hsign (hcompound l hassign)) fun handle compile => ?_
        rw [hrun]
        simp only [declarationLineBy, htrim, hsign, hnoCompound, hstart _ (by decide) himport, hengine,
          hpoint, dottedLine, hmark, hdefines', runFrom_bind, runFrom_pure,
          Bool.false_eq_true, if_false, if_true]
        rcases (defineEngineMethod l).runFrom t with ⟨_ | _, t'⟩ <;> rfl
      · cases h
      · cases h

def isShippedLine (l : Text) : Bool :=
  l.all (fun c => c != '\n' && c != '\\') && (l.isEmpty || l.head? == some '#' || isDeclaration l)

theorem forall_toList_cons {p : Text → Prop} (h : p l)
    (hs : ∀ x ∈ ls, p x.toList) : ∀ x ∈ String.ofList l :: ls, p x.toList := by
  intro x hx
  rcases mem_cons.mp hx with rfl | hx
  · rw [String.toList_ofList]
    exact h
  · exact hs x hx

theorem isShippedLine_modules (h : ls ∈ [commonLines, djangoLines, jinja2Lines, railsLines,
      web2pyLines]) : ∀ x ∈ ls, isShippedLine x.toList := by
  simp only [mem_cons, not_mem_nil, or_false] at h
  rcases h with rfl | rfl | rfl | rfl | rfl
  all_goals
    first | unfold commonLines | unfold djangoLines | unfold jinja2Lines |
      unfold railsLines | unfold web2pyLines
    repeat
      apply forall_toList_cons (p := fun l => isShippedLine l)
      · decide +kernel
    nofun

theorem lines_joined (h : ∀ x ∈ ls, isShippedLine x.toList) :
    (joined ls).lines = ls.map fun x => x.toList ++ ['\n'] := by
  induction ls with
  | nil => rfl
  | cons x ls ih =>
    have hx := h x mem_cons_self
    simp only [isShippedLine, Bool.and_eq_true, all_eq_true, bne_iff_ne] at hx
    have hcut : joined (x :: ls) = x.toList ++ '\n' :: joined ls := by
      simp [joined]
    rw [hcut, lines_append_newline fun hm => (hx.1 _ hm).1 rfl, map_cons, ih (forall_mem_cons.mp h).2]

theorem head?_trim_cons {c : Char} (hc : isBlank c = false) (s : Text) : (trim (c :: s)).head? = some c := by
  rw [trim, trimLeft, dropWhile_cons_of_neg (by simp [hc]), trimRight,
    dropRightWhile, head?_reverse, reverse_cons, dropWhile_append]
  split
  · simp [hc]
  · simp

theorem ordinary_ignored (h : isIgnored source) : Ordinary names source := by
  refine ⟨fun h' => ?_, fun h' => ?_⟩ <;> rw [h] at h' <;> cases h'

theorem ordinary_joined (h : ∀ x ∈ ls, isShippedLine x.toList) :
    ∀ l ∈ Source.lines (joined ls), Ordinary names l.2 := by
  have hslash : ∀ l ∈ ls.map fun x => x.toList ++ ['\n'], '\\' ∉ l := by
    intro l hl hm
    obtain ⟨x, hx, rfl⟩ := mem_map.mp hl
    have hx := h x hx
    simp only [isShippedLine, Bool.and_eq_true, all_eq_true, bne_iff_ne] at hx
    rcases mem_append.mp hm with hm | hm
    · exact (hx.1 _ hm).2 rfl
    · exact absurd (mem_singleton.mp hm) (by decide)
  intro l hl
  have hmem : l.2 ∈ (Source.lines (joined ls)).map (·.2) := mem_map_of_mem hl
  rw [Source.lines, lines_joined h, joinFrom_eq_self hslash] at hmem
  obtain ⟨x, hx, hline⟩ := mem_map.mp hmem
  rw [← hline]
  have hx := h x hx
  simp only [isShippedLine, Bool.and_eq_true, Bool.or_eq_true, beq_iff_eq] at hx
  obtain ⟨-, (hempty | hhash) | hdeclares⟩ := hx
  · rw [isEmpty_iff.mp hempty]
    exact ordinary_ignored (by decide)
  · obtain ⟨r, hr⟩ := head?_eq_some_iff.mp hhash
    rw [hr]
    refine ordinary_ignored ?_
    rw [isIgnored, cons_append, head?_trim_cons rfl]
    simp
  · exact ordinary_declaration hdeclares

theorem ordinary_library {path text : Text} {files : Files} (hread : read? files .library path = some text) :
    ∀ l ∈ Source.lines text, Ordinary names l.2 := by
  obtain ⟨file, hfile, rfl⟩ := Option.map_eq_some_iff.mp hread
  have hmem := mem_of_find?_eq_some hfile
  simp only [modules, mem_cons, not_mem_nil, or_false] at hmem
  rcases hmem with rfl | rfl | rfl | rfl | rfl
  all_goals exact ordinary_joined (isShippedLine_modules (by simp))

end Compile
end OutlineMarkup
