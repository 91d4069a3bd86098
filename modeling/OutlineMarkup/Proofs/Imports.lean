import Mathlib.Data.Finset.Dedup
import OutlineMarkup.Proofs.ImportLines

/-!
# Imports

Every module is noted as imported before it is compiled, and an import of a noted module does nothing.
So the modules that can still be imported become fewer with every module that is being compiled inside
another, and lines nest no more deeply than twice their number. Which lines have a module compiled is
written down as a plan, and a run by a plan cannot compile anything else. Main statement: whatever the files
import, compiling one of them ends and goes by a plan in which no module occurs twice.
-/

namespace OutlineMarkup
open List Action Compile Session Library

/-! ## Plans -/

/-- Which lines of a file have modules compiled: for each line the module, if there is one, and the plan for
the lines of that module. Behind the end of the plan no line has any. -/
inductive Plan where
  | idle
  | step (module? : Option Text) (inside rest : Plan)

namespace Compile

def noted (name : Text) (s : Session) : Session := { s with imported := s.imported ++ [name] }

def noModule (_ : Text) : Compile Unit := throw .tooDeep

/-- Handles a line, and once more if it ends a verbatim block. -/
def lineTwice (compile : Text → Compile Unit) (source : Text) : Compile Unit :=
  lineBy (lineBy (fun _ => throw .tooDeep) compile) compile source

def compileLines (lines : List (Nat × Text) → Compile Unit) (path : Text) : Compile Unit := do
  let text ← openFile path
  lines (Source.lines text)
  closeAll (lineTwice noModule)

end Compile

namespace Plan

/-- The modules of a plan, in the order in which they are begun. -/
def modules : Plan → List Text
  | idle => []
  | step x inside rest => x.toList ++ (inside.modules ++ rest.modules)

/-- How many modules are compiled inside each other. -/
def depth : Plan → Nat
  | idle => 0
  | step x inside rest => max (x.toList.length + inside.depth) rest.depth

/-- Handles the lines of a file by a plan: a line can have no module compiled but the one of the plan. -/
def lines : Plan → Text → List (Nat × Text) → Compile Unit
  | idle, path, ls => ls.forM fun l => guardLine (lineTwice noModule) path l.1 l.2
  | step _ _ _, _, [] => pure ()
  | step x inside rest, path, l :: ls => do
    guardLine (lineTwice fun name =>
      if x = some name then do
        modify (noted name)
        compileLines (inside.lines (modulePath name)) (modulePath name)
      else throw .tooDeep) path l.1 l.2
    rest.lines path ls

def compile (p : Plan) (path : Text) : Compile Unit := compileLines (p.lines path) path

def module (x : Option Text) (inside : Plan) (name : Text) : Compile Unit :=
  if x = some name then do
    modify (noted name)
    inside.compile (modulePath name)
  else throw .tooDeep

theorem depth_le (p : Plan) : p.depth ≤ p.modules.length := by
  induction p with
  | idle => exact Nat.le_refl 0
  | step x inside rest hinside hrest =>
    rw [depth, modules, length_append, length_append]
    omega

end Plan

namespace Compile
variable {l name path text : Text} {s t v : Session} {names : Finset Text} {k n : Nat}

/-! ## Runs that differ in how modules are compiled -/

/-- Of the background only the imports have changed, which have become more. -/
structure Later (s t : Session) : Prop where
  background : t.background = { s.background with imported := t.imported }
  imported : s.imported <+: t.imported

namespace Later

theorem of_background (h : t.background = s.background) : Later s t := by
  have himported : t.imported = s.imported := congrArg Background.imported h
  refine ⟨?_, ?_⟩
  · rw [himported, h]
    rfl
  · rw [himported]

theorem trans (hst : Later s t) (htv : Later t v) : Later s v := by
  refine ⟨?_, hst.imported.trans htv.imported⟩
  rw [htv.background, hst.background]

theorem bare (h : Later s t) (hs : Bare s) : Bare t := by
  have hb := h.background
  simp only [Session.background, Background.mk.injEq] at hb
  obtain ⟨_, _, _, hg, hd, hm, hl, _⟩ := hb
  exact ⟨hg.trans hs.globals, hm.trans hs.methods, hl.trans hs.loops, hd.trans hs.defining⟩

end Later

/-- Two actions have the same run, which fails mildly and changes of the background only the imports. The
modules that are begun were not noted before, are so afterwards, and none is begun twice. -/
structure SameRun (names : Finset Text) (begun : List Text) (s : Session) (x y : Compile Unit) : Prop where
  run : x.runFrom s = y.runFrom s
  later : Later s (x.runFrom s).2
  mild : FailsMildly (x.runFrom s).1
  once : begun.Nodup
  fresh : ∀ name ∈ begun, name ∈ names ∧ name ∉ s.imported ∧ name ∈ (x.runFrom s).2.imported

namespace SameRun
variable {x y z w : Compile Unit} {begun b : List Text}

theorem settled {r : Except Fault Unit} (hr : FailsMildly r) (ht : t.background = s.background)
    (hx : x.runFrom s = (r, t)) (hy : y.runFrom s = (r, t)) : SameRun names [] s x y := by
  refine ⟨hx.trans hy.symm, ?_, ?_, nodup_nil, fun _ h => absurd h not_mem_nil⟩
  · rw [hx]
    exact .of_background ht
  · rwa [hx]

theorem of_tame (h : Tame s.background x) : SameRun names [] s x x := settled (h s rfl).2 (h s rfl).1 rfl rfl

theorem of_run (h : SameRun names begun t z w) (hst : Later s t) (hx : x.runFrom s = z.runFrom t)
    (hy : y.runFrom s = w.runFrom t) : SameRun names begun s x y := by
  refine ⟨?_, ?_, ?_, h.once, fun name hname => ?_⟩
  · rw [hx, hy, h.run]
  · rw [hx]
    exact hst.trans h.later
  · rw [hx]
    exact h.mild
  · obtain ⟨hmem, hnew, hnoted⟩ := h.fresh name hname
    rw [hx]
    exact ⟨hmem, fun hm => hnew (hst.imported.subset hm), hnoted⟩

/-- What follows begins other modules, and none if nothing follows because of a fault. -/
theorem bind {f g : Unit → Compile Unit} (h : SameRun names begun s x y)
    (hfg : ∀ t, x.runFrom s = (.ok (), t) → SameRun names b t (f ()) (g ()))
    (hnone : ∀ e t, x.runFrom s = (.error e, t) → b = []) :
    SameRun names (begun ++ b) s (x >>= f) (y >>= g) := by
  obtain ⟨hrun, hlater, hmild, honce, hfresh⟩ := h
  rcases hx : x.runFrom s with ⟨e | _, t⟩
  · rw [hx] at hrun hlater hmild hfresh
    have hf := runFrom_bind_error (f := f) hx
    have hg := runFrom_bind_error (f := g) hrun.symm
    rw [hnone e t hx, append_nil]
    refine ⟨hf.trans hg.symm, ?_, ?_, honce, ?_⟩
    all_goals rwa [hf]
  · rw [hx] at hrun hlater hfresh
    have hrest := hfg t hx
    have hlast := hrest.of_run hlater (runFrom_bind_ok hx) (runFrom_bind_ok hrun.symm)
    refine ⟨hlast.run, hlast.later, hlast.mild, nodup_append.mpr ⟨honce, hrest.once, ?_⟩, fun name hname => ?_⟩
    · rintro a ha _ hb rfl
      exact (hrest.fresh a hb).2.1 (hfresh a ha).2.2
    · rcases mem_append.mp hname with hname | hname
      · obtain ⟨hmem, hnew, hnoted⟩ := hfresh name hname
        rw [runFrom_bind_ok hx]
        exact ⟨hmem, hnew, hrest.later.imported.subset hnoted⟩
      · exact hlast.fresh name hname

theorem tryCatch {k l : Fault → Compile Unit} (h : SameRun names begun s x y)
    (hkl : ∀ f : Fault, f.isMild → k f = l f)
    (hk : ∀ (f : Fault) (t : Session), f.isMild → Tame t.background (k f)) :
    SameRun names begun s (tryCatch x k) (tryCatch y l) := by
  obtain ⟨hrun, hlater, hmild, honce, hfresh⟩ := h
  rcases hx : x.runFrom s with ⟨f | _, t⟩
  · rw [hx] at hrun hlater hmild hfresh
    have hf := hmild f rfl
    obtain ⟨hback, hends⟩ := hk f t hf t rfl
    have hcatch : (MonadExcept.tryCatch x k).runFrom s = (k f).runFrom t := by rw [runFrom_tryCatch, hx]
    have himported : ((k f).runFrom t).2.imported = t.imported := congrArg Background.imported hback
    refine ⟨?_, ?_, ?_, honce, ?_⟩
    · rw [hcatch, runFrom_tryCatch, ← hrun, hkl f hf]
    · rw [hcatch]
      exact hlater.trans (.of_background hback)
    · rwa [hcatch]
    · rwa [hcatch, himported]
  · rw [hx] at hrun hlater hfresh
    have hcatch : (MonadExcept.tryCatch x k).runFrom s = (.ok (), t) := by rw [runFrom_tryCatch, hx]
    refine ⟨?_, by rwa [hcatch], by rw [hcatch]; exact .ok _, honce, by rwa [hcatch]⟩
    rw [hcatch, runFrom_tryCatch, ← hrun]

end SameRun

/-! ## Lines -/

/-- A session in which every file has ordinary lines, and not more than `k` of the modules that they
name are left to import. -/
structure Ready (names : Finset Text) (k : Nat) (s : Session) : Prop where
  bare : Bare s
  ordinary : ∀ path text, Library.read? s.files s.place path = some text →
    ∀ l ∈ Source.lines text, Ordinary names l.2
  left : (names \ s.imported.toFinset).card ≤ k

theorem Ready.later (h : Ready names k s) (hst : Later s t) : Ready names k t := by
  have hb := hst.background
  simp only [background, Background.mk.injEq] at hb
  obtain ⟨_, hfiles, hplace, _⟩ := hb
  refine ⟨hst.bare h.bare, ?_, ?_⟩
  · rw [hfiles, hplace]
    exact h.ordinary
  · refine (Finset.card_le_card ?_).trans h.left
    intro name hname
    rw [Finset.mem_sdiff, mem_toFinset] at hname ⊢
    exact ⟨hname.1, fun hm => hname.2 (hst.imported.subset hm)⟩

/-- A line is settled or imports a module at once, or does so when it is handled for the second time. -/
theorem lineBy_twice (hs : Bare s) (hl : Ordinary names l) :
    (∃ (r : Except Fault Unit) (t : Session), FailsMildly r ∧ t.background = s.background ∧
      ∀ handle compile compile', (lineBy (lineBy handle compile') compile l).runFrom s = (r, t)) ∨
    ∃ name ∈ names, ∃ t : Session, t.background = s.background ∧
      ((∀ handle compile compile', (lineBy (lineBy handle compile') compile l).runFrom s =
          (importModuleBy compile name).runFrom t) ∨
        ∀ handle compile compile', (lineBy (lineBy handle compile') compile l).runFrom s =
          (importModuleBy compile' name).runFrom t) := by
  cases lineBy_course hs hl with
  | settled hr ht hrun => exact .inl ⟨_, _, hr, ht, fun _ _ _ => hrun _ _⟩
  | imports hname ht hrun => exact .inr ⟨_, hname, _, ht, .inl fun _ _ _ => hrun _ _⟩
  | again _ hnone ht hrun =>
    cases lineBy_course (hs.of_background ht) hl with
    | settled hr ht' hrun' =>
      exact .inl ⟨_, _, hr, ht'.trans ht, fun _ _ _ => (hrun _ _).trans (hrun' _ _)⟩
    | imports hname ht' hrun' =>
      exact .inr ⟨_, hname, _, ht'.trans ht, .inr fun _ _ _ => (hrun _ _).trans (hrun' _ _)⟩
    | again hopen =>
      rw [hnone] at hopen
      cases hopen

/-- If imports go by plans, so does a line. -/
theorem line_planned (hs : Ready names k s) (hl : Ordinary names l)
    (himport : ∀ t name m, Ready names k t → name ∈ names → n ≤ m → ∃ x inside,
      SameRun names (x.toList ++ inside.modules) t (importModuleBy (Plan.module x inside) name)
        (importModuleBy (compileModule (lineTo m)) name)) :
    ∃ x inside, SameRun names (x.toList ++ inside.modules) s (lineTwice (Plan.module x inside) l)
      (lineTo (n + 2) l) := by
  rcases lineBy_twice hs.bare hl with ⟨r, t, hr, ht, hrun⟩ | ⟨name, hname, t, ht, hrun | hrun⟩
  · exact ⟨none, .idle, .settled hr ht (hrun ..) (hrun ..)⟩
  · obtain ⟨x, inside, hsame⟩ := himport t name (n + 1) (hs.later (.of_background ht)) hname (Nat.le_succ n)
    exact ⟨x, inside, hsame.of_run (.of_background ht) (hrun ..) (hrun ..)⟩
  · obtain ⟨x, inside, hsame⟩ := himport t name n (hs.later (.of_background ht)) hname (Nat.le_refl n)
    exact ⟨x, inside, hsame.of_run (.of_background ht) (hrun ..) (hrun ..)⟩

theorem endMark_planned (hs : Bare s) (n : Nat) :
    SameRun names [] s (lineTwice noModule endMark) (lineTo (n + 2) endMark) := by
  rcases lineBy_twice hs (ordinary_endMark : Ordinary ∅ endMark) with ⟨r, t, hr, ht, hrun⟩ | ⟨name, hname, _⟩
  · exact .settled hr ht (hrun ..) (hrun ..)
  · exact absurd hname (Finset.notMem_empty name)

/-! ## Files -/

theorem guardLine_agrees {handle handle' : Handler} {begun : List Text} (path : Text) (i : Nat)
    (h : SameRun names begun s (handle l) (handle' l)) :
    SameRun names begun s (guardLine handle path i l) (guardLine handle' path i l) := by
  refine h.tryCatch (fun _ _ => rfl) fun f t hf => ?_
  split
  · exact .bind (report_tame _) fun _ => .bind (report_tame _) fun _ => .throw rfl
  · exact .bind (report_tame _) fun _ => .bind (report_tame _) fun _ => .throw hf

def closeRest (handle : Text → Compile Unit) : Compile Unit := do
  if (← get).isDefining then discard (methodLine handle endMark)
  unrollAll handle (← get).depthBound
  Action.times closeLast (← get).elements.length

theorem closeRest_run (hs : Bare s) (handle : Handler) :
    (closeRest handle).runFrom s = (times closeLast s.elements.length).runFrom s := by
  have hdef := isDefining_eq_false hs.defining
  simp [closeRest, runFrom_bind, hdef, unrollAll_bound _ hs.loops]

theorem closeAll_run_none (hblock : s.block = none) (handle : Handler) :
    (closeAll handle).runFrom s = (closeRest handle).runFrom s := by
  simp [closeAll, closeRest, runFrom_bind, hblock]

theorem closeAll_run_some (hblock : s.block.isSome) (handle : Handler) : (closeAll handle).runFrom s =
      (do discard (verbatimLine handle endMark); closeRest handle : Compile Unit).runFrom s := by
  simp [closeAll, closeRest, runFrom_bind, hblock]

theorem closeAll_planned (hs : Bare s) (n : Nat) :
    SameRun names [] s (closeAll (lineTwice noModule)) (closeAll (lineTo (n + 2))) := by
  have hrest : ∀ t, Bare t → ∀ handle handle', SameRun names [] t (closeRest handle) (closeRest handle') := by
    intro t ht handle handle'
    have hclose : SameRun names [] t (times closeLast t.elements.length) (times closeLast t.elements.length) :=
      .of_tame (.times closeLast_tame _)
    exact hclose.of_run (.of_background rfl) (closeRest_run ht _) (closeRest_run ht _)
  cases hblock : s.block with
  | none =>
    exact (hrest s hs _ _).of_run (.of_background rfl) (closeAll_run_none hblock _) (closeAll_run_none hblock _)
  | some name =>
    have hopen : s.block.isSome := by rw [hblock]; rfl
    have hends : SameRun names [] s (discard (verbatimLine (lineTwice noModule) endMark))
        (discard (verbatimLine (lineTo (n + 2)) endMark)) := by
      have hadd : ∀ line, Tame s.background (addToBlock line) := addToBlock_tame hs.globals
      rcases verbatimLine_cases (fun _ hf => hf) hs.defining hadd endMark with
        ⟨r, t, hr, hb, hrun⟩ | ⟨-, t, -, hb, hrun⟩
      · have hdone : ∀ handle, (discard (verbatimLine handle endMark)).runFrom s =
            (r.map fun _ => (), t) := by
          intro handle
          rw [runFrom_discard, hrun]
          cases r <;> rfl
        refine .settled ?_ hb (hdone _) (hdone _)
        cases r with
        | error f => exact .error (hr f rfl)
        | ok ended => exact .ok _
      · have hagain : ∀ handle, (discard (verbatimLine handle endMark)).runFrom s =
            (handle endMark).runFrom t := by
          intro handle
          rw [runFrom_discard, hrun, runFrom_bind]
          rcases (handle endMark).runFrom t with ⟨_ | _, v⟩ <;> rfl
        exact (endMark_planned (hs.of_background hb) n).of_run (.of_background hb) (hagain _) (hagain _)
    have hboth := hends.bind (f := fun _ => closeRest (lineTwice noModule)) (g := fun _ => closeRest (lineTo (n + 2)))
      (b := []) (fun t ht => hrest t (by simpa [ht] using hends.later.bare hs) _ _) fun _ _ _ => rfl
    exact hboth.of_run (.of_background rfl) (closeAll_run_some hopen _) (closeAll_run_some hopen _)

section Files
variable (hline : ∀ t l, Ready names k t → Ordinary names l → ∃ x inside,
  SameRun names (x.toList ++ inside.modules) t (lineTwice (Plan.module x inside) l) (lineTo (n + 2) l))
include hline

theorem lines_planned (path : Text) {ls : List (Nat × Text)} (hls : ∀ l ∈ ls, Ordinary names l.2)
    (hs : Ready names k s) : ∃ p : Plan, SameRun names p.modules s (p.lines path ls)
      (ls.forM fun l => guardLine (lineTo (n + 2)) path l.1 l.2) := by
  induction ls generalizing s with
  | nil => exact ⟨.idle, .settled (r := .ok ()) (t := s) (.ok ()) rfl rfl rfl⟩
  | cons l ls ih =>
    obtain ⟨x, inside, hfirst⟩ := hline s l.2 hs (hls l mem_cons_self)
    have hguarded := guardLine_agrees path l.1 hfirst
    -- The plan for the lines that follow depends on where the first one leads.
    rcases hrun : (guardLine (lineTwice (Plan.module x inside)) path l.1 l.2).runFrom s with ⟨e | _, t⟩
    · refine ⟨.step x inside .idle, ?_⟩
      rw [Plan.modules, ← append_assoc]
      exact hguarded.bind (fun t ht => by rw [hrun] at ht; cases ht) fun _ _ _ => rfl
    · have hlater := hguarded.later
      rw [hrun] at hlater
      obtain ⟨rest, hrest⟩ := ih (forall_mem_cons.mp hls).2 (hs.later hlater)
      refine ⟨.step x inside rest, ?_⟩
      rw [Plan.modules, ← append_assoc]
      refine hguarded.bind (fun t' ht => ?_) fun e t' ht => ?_
      · rw [hrun] at ht
        cases ht
        exact hrest
      · rw [hrun] at ht
        cases ht

theorem compile_planned (hs : Ready names k s) (hread : read? s.files s.place path = some text) :
    ∃ p : Plan, SameRun names p.modules s (p.compile path) (compileFile (lineTo (n + 2)) path) := by
  have hopen : (openFile path).runFrom s = (.ok text, s) := by
    simp [openFile, runFrom_bind, hread]
  obtain ⟨p, hp⟩ := lines_planned hline path (hs.ordinary path text hread) hs
  have hclosed := hp.bind (f := fun _ => closeAll (lineTwice noModule)) (g := fun _ => closeAll (lineTo (n + 2)))
    (b := []) (fun t ht => closeAll_planned (by simpa [ht] using hp.later.bare hs.bare) n) fun _ _ _ => rfl
  rw [append_nil] at hclosed
  exact ⟨p, hclosed.of_run (.of_background rfl) (runFrom_bind_ok hopen) (runFrom_bind_ok hopen)⟩

end Files

/-! ## Modules -/

theorem inLibrary_run (x : Compile Unit) : (inLibrary x).runFrom s =
      ((x.runFrom { s with place := .library }).1,
        { (x.runFrom { s with place := .library }).2 with place := s.place }) := by
  simp only [inLibrary, runFrom_bind, runFrom_get, runFrom_modify, runFrom_tryCatch]
  rcases x.runFrom { s with place := .library } with ⟨f | _, t⟩
  · rfl
  · rfl

theorem ifMissing_mild {f : Fault} (hf : f.isMild) (x : Compile Unit) : ifMissing x f = throw f := by
  cases f <;> first | rfl | cases hf

theorem compileModule_run (handle : Handler) (name : Text) : (compileModule handle name).runFrom s =
      (compileFile handle (modulePath name)).runFrom (noted name s) := rfl

theorem module_run (inside : Plan) (name : Text) : (Plan.module (some name) inside name).runFrom s =
      (inside.compile (modulePath name)).runFrom (noted name s) := by
  rw [Plan.module, if_pos rfl]
  rfl

theorem openFile_missing (hread : read? s.files s.place path = none) :
    ∃ t : Session, t.background = s.background ∧ (openFile path).runFrom s = (.error .missingFile, t) := by
  rw [openFile, runFrom_bind_ok (runFrom_get s), hread]
  cases hplace : s.place with
  | project directory => exact ⟨_, by rw [background, background, hplace], rfl⟩
  | library => exact ⟨s, rfl, rfl⟩

theorem later_noted (name : Text) (s : Session) : Later s (noted name s) := ⟨rfl, prefix_append _ _⟩

theorem mem_noted (name : Text) (s : Session) : name ∈ (noted name s).imported :=
  mem_append_right _ (mem_singleton.mpr rfl)

theorem Ready.noted (h : Ready names (k + 1) s) (hname : name ∈ names) (hnew : name ∉ s.imported) :
    Ready names k (noted name s) := by
  refine ⟨⟨h.bare.globals, h.bare.methods, h.bare.loops, h.bare.defining⟩, h.ordinary, ?_⟩
  have hless : names \ (Compile.noted name s).imported.toFinset ⊂ names \ s.imported.toFinset := by
    refine Finset.ssubset_iff_subset_ne.mpr ⟨?_, fun heq => ?_⟩
    · refine Finset.sdiff_subset_sdiff (le_refl _) fun other hother => ?_
      rw [mem_toFinset] at hother ⊢
      exact mem_append_left _ hother
    · have hmem : name ∈ names \ s.imported.toFinset := by simp [hname, hnew]
      rw [← heq, Finset.mem_sdiff, mem_toFinset] at hmem
      exact hmem.2 (mem_noted name s)
  have hcard := Finset.card_lt_card hless
  have hleft := h.left
  omega

theorem SameRun.noted {x y z w : Compile Unit} {begun : List Text} (h : SameRun names begun (noted name s) z w)
    (hname : name ∈ names) (hnew : name ∉ s.imported) (hx : x.runFrom s = z.runFrom (Compile.noted name s))
    (hy : y.runFrom s = w.runFrom (Compile.noted name s)) : SameRun names (name :: begun) s x y := by
  have hrun := h.of_run (later_noted name s) hx hy
  refine ⟨hrun.run, hrun.later, hrun.mild, nodup_cons.mpr ⟨fun hm => ?_, h.once⟩, forall_mem_cons.mpr ⟨?_, hrun.fresh⟩⟩
  · exact (h.fresh name hm).2.1 (mem_noted name s)
  · refine ⟨hname, hnew, ?_⟩
    rw [hx]
    exact h.later.imported.subset (mem_noted name s)

theorem importModuleBy_known (h : name ∈ s.imported) (compile : Handler) :
    (importModuleBy compile name).runFrom s = (.ok (), s) := by
  have hcontains : s.imported.contains name := contains_iff_mem.mpr h
  simp only [importModuleBy, runFrom_bind, runFrom_get, hcontains, if_true, runFrom_pure]

theorem importModuleBy_new (h : name ∉ s.imported) (compile : Handler) :
    (importModuleBy compile name).runFrom s = (tryCatch (compile name) <| ifMissing <| inLibrary <|
      tryCatch (compile name) <| ifMissing (throw (.rejected (.missingModule name)))).runFrom s := by
  have hcontains : s.imported.contains name = false := by
    rw [← Bool.not_eq_true, contains_iff_mem]
    exact h
  simp only [importModuleBy, runFrom_bind, runFrom_get, hcontains, Bool.false_eq_true, if_false]

def orMissing (name : Text) (x : Compile Unit) : Compile Unit :=
  tryCatch x <| ifMissing (throw (.rejected (.missingModule name)))

theorem later_shipped
    (ht : t.background = { s.background with place := .library, imported := s.imported ++ [name] })
    (hv : Later (noted name t) v) : Later s { v with place := s.place } := by
  have himported : t.imported = s.imported ++ [name] := congrArg Background.imported ht
  refine ⟨?_, ?_⟩
  · have hb := hv.background
    simp only [background, noted, Background.mk.injEq] at hb ht ⊢
    obtain ⟨h1, h2, -, h4, h5, h6, h7, -, h9, h10⟩ := hb
    obtain ⟨g1, g2, -, g4, g5, g6, g7, -, g9, g10⟩ := ht
    exact ⟨h1.trans g1, h2.trans g2, trivial, h4.trans g4, h5.trans g5, h6.trans g6, h7.trans g7, trivial,
      h9.trans g9, h10.trans g10⟩
  · refine IsPrefix.trans ?_ hv.imported
    rw [noted, himported, append_assoc]
    exact prefix_append _ _

section Imports
variable (hfile : ∀ names s path text, Ready names k s → read? s.files s.place path = some text →
  ∃ p : Plan, SameRun names p.modules s (p.compile path) (compileFile (lineTo n) path))
include hfile

theorem shipped_planned (hs : Bare s) (hplace : s.place = .library) (name : Text) :
    ∃ p : Plan, SameRun ∅ p.modules s (orMissing name (p.compile (modulePath name)))
      (orMissing name (compileFile (lineTo n) (modulePath name))) := by
  cases hread : read? s.files s.place (modulePath name) with
  | none =>
    obtain ⟨t, ht, hopen⟩ := openFile_missing hread
    have hmissing : ∀ f : Text → Compile Unit, (orMissing name (openFile (modulePath name) >>= f)).runFrom s =
        (.error (.rejected (.missingModule name)), t) := by
      intro f
      rw [orMissing, runFrom_tryCatch, runFrom_bind_error hopen]
      rfl
    exact ⟨.idle, .settled (.error rfl) ht (hmissing _) (hmissing _)⟩
  | some text =>
    have hready : Ready ∅ k s := by
      refine ⟨hs, fun path text hread => ?_, by simp⟩
      rw [hplace] at hread
      exact ordinary_library hread
    obtain ⟨p, hp⟩ := hfile ∅ s _ text hready hread
    refine ⟨p, hp.tryCatch (fun f hf => rfl) fun f t hf => ?_⟩
    rw [ifMissing_mild hf]
    exact .throw hf

theorem missing_planned (hs : Bare s) (hname : name ∈ names) (hnew : name ∉ s.imported)
    (hread : read? s.files s.place (modulePath name) = none) :
    ∃ inside : Plan, SameRun names (name :: inside.modules) s (importModuleBy (Plan.module (some name) inside) name)
      (importModuleBy (compileModule (lineTo n)) name) := by
  obtain ⟨t, ht, hopen⟩ := openFile_missing (s := noted name s) hread
  obtain ⟨v, hv⟩ : ∃ v : Session, v = { t with place := .library } := ⟨_, rfl⟩
  have hback : v.background = { s.background with place := .library, imported := s.imported ++ [name] } := by
    have hlibrary : v.background = { t.background with place := .library } := by rw [hv]; rfl
    rw [hlibrary, ht]
    rfl
  have htplace : t.place = s.place := congrArg Background.place ht
  have hbare : Bare (noted name v) := by
    simp only [background, Background.mk.injEq] at hback
    obtain ⟨-, -, -, hg, hd, hm, hl, -⟩ := hback
    exact ⟨hg.trans hs.globals, hm.trans hs.methods, hl.trans hs.loops, hd.trans hs.defining⟩
  obtain ⟨p, hp⟩ := shipped_planned hfile hbare (congrArg Background.place hback) name
  have hrun : ∀ (compile : Handler) (f : Text → Compile Unit), (∀ r, (compile name).runFrom r =
      (openFile (modulePath name) >>= f).runFrom (noted name r)) → (importModuleBy compile name).runFrom s =
      (((orMissing name (openFile (modulePath name) >>= f)).runFrom (noted name v)).1,
        { ((orMissing name (openFile (modulePath name) >>= f)).runFrom (noted name v)).2 with place := s.place }) := by
    intro compile f hcompile
    rw [importModuleBy_new hnew, runFrom_tryCatch, hcompile, runFrom_bind_error hopen]
    change (inLibrary _).runFrom t = _
    rw [inLibrary_run, htplace, ← hv, orMissing, runFrom_tryCatch, runFrom_tryCatch, hcompile]
  have hplanned := hrun _ _ fun r => module_run (s := r) p name
  have hreal := hrun _ _ fun r => compileModule_run (s := r) (lineTo n) name
  -- The files of shipped modules import nothing.
  have hnone : p.modules = [] :=
    eq_nil_iff_forall_not_mem.mpr fun x hx => Finset.notMem_empty x (hp.fresh x hx).1
  refine ⟨p, ?_, ?_, ?_, ?_, ?_⟩
  · rw [hplanned, hreal]
    exact congrArg (fun r => (r.1, { r.2 with place := s.place })) hp.run
  · rw [hplanned]
    exact later_shipped hback hp.later
  · rw [hplanned]
    exact hp.mild
  · rw [hnone]
    exact nodup_singleton name
  · rw [hnone, hplanned]
    rintro x hx
    obtain rfl := mem_singleton.mp hx
    exact ⟨hname, hnew, hp.later.imported.subset (mem_noted x v)⟩

/-- Compiling a module inside another one leaves one module less to import. -/
theorem import_planned (hs : Ready names (k + 1) s) (hname : name ∈ names) : ∃ x inside,
    SameRun names (x.toList ++ inside.modules) s (importModuleBy (Plan.module x inside) name)
      (importModuleBy (compileModule (lineTo n)) name) := by
  by_cases hnew : name ∈ s.imported
  · exact ⟨none, .idle, .settled (.ok ()) rfl (importModuleBy_known hnew _) (importModuleBy_known hnew _)⟩
  cases hread : read? s.files s.place (modulePath name) with
  | some text =>
    obtain ⟨p, hp⟩ := hfile names (noted name s) _ text (hs.noted hname hnew) hread
    have hmodule := hp.noted hname hnew (module_run p name) (compileModule_run (lineTo n) name)
    refine ⟨some name, p, SameRun.of_run (hmodule.tryCatch (fun f hf => ?_) fun f t hf => ?_) (.of_background rfl)
      (importModuleBy_new hnew _) (importModuleBy_new hnew _)⟩
    · rw [ifMissing_mild hf, ifMissing_mild hf]
    · rw [ifMissing_mild hf]
      exact .throw hf
  | none =>
    obtain ⟨inside, hinside⟩ := missing_planned hfile hs.bare hname hnew hread
    exact ⟨some name, inside, hinside⟩

end Imports

/-- A file goes by a plan if two levels of lines are left for every module that can still be imported. -/
theorem file_planned (k : Nat) : ∀ {n : Nat}, 2 * k + 2 ≤ n → ∀ names s path text, Ready names k s →
    read? s.files s.place path = some text →
    ∃ p : Plan, SameRun names p.modules s (p.compile path) (compileFile (lineTo n) path) := by
  induction k with
  | zero =>
    intro n hn names s path text hs hread
    obtain ⟨n, rfl⟩ : ∃ m, n = m + 2 := ⟨n - 2, by omega⟩
    refine compile_planned (fun t l ht hl => line_planned ht hl fun v name m hv hname _ => ?_) hs hread
    have hknown : name ∈ v.imported := by
      have hempty := Finset.card_eq_zero.mp (Nat.le_zero.mp hv.left)
      by_contra hnew
      have hmem : name ∈ names \ v.imported.toFinset := by simp [hname, hnew]
      rw [hempty] at hmem
      exact Finset.notMem_empty name hmem
    exact ⟨none, .idle, .settled (.ok ()) rfl (importModuleBy_known hknown _) (importModuleBy_known hknown _)⟩
  | succ k ih =>
    intro n hn names s path text hs hread
    obtain ⟨n, rfl⟩ : ∃ m, n = m + 2 := ⟨n - 2, by omega⟩
    refine compile_planned (fun t l ht hl => line_planned ht hl fun v name m hv hname hm => ?_) hs hread
    exact import_planned (ih (by omega)) hv hname

end Compile

/-! ## Files that import each other -/

/-- A line that imports a module, or plain markup behind any blanks. -/
inductive Entry where
  | imports (name : Text)
  | markup (space : Text) (m : Markup Text)

namespace Entry

def written : Entry → Text
  | imports name => Compile.importText name
  | markup space m => space ++ m.written

def isValid : Entry → Bool
  | imports name => Compile.isModuleName name
  | markup space m => (space.all fun c => c == ' ' || c == '\t') && m.isPlain && isUnreserved m.written

def name? : Entry → Option Text
  | imports name => some name
  | markup _ _ => none

theorem exists_unit {space : Text} (h : (space.all fun c => c == ' ' || c == '\t')) :
    ∃ u k, isUnit u ∧ space = u.times k := by
  by_cases hspace : space = []
  · exact ⟨" ", 0, rfl, hspace⟩
  · exact ⟨space, 1, by simp [isUnit, hspace, h], by simp⟩

theorem line_signs {x : Entry} (h : x.isValid) : Unbroken x.written := by
  cases x with
  | imports name =>
    have hsolid := importText_solid h
    obtain ⟨-, hchars⟩ := (isModuleName_iff name).mp h
    refine ⟨hsolid.ne_nil, ?_, ?_⟩
    · intro hm
      rcases mem_append.mp hm with hm | hm
      · exact absurd hm (by decide)
      · exact absurd (hchars _ hm).1 (by decide)
    · intro hm
      rcases mem_append.mp hm with hm | hm
      · exact absurd hm (by decide)
      · exact (hchars _ hm).2.2.2 rfl
  | markup space m =>
    simp only [isValid, Bool.and_eq_true] at h
    obtain ⟨⟨hspace, hm⟩, hun⟩ := h
    obtain ⟨u, k, hu, rfl⟩ := exists_unit hspace
    exact (Markup.spells_written hm hun).calm.line_signs hu

theorem ordinary {names : Finset Text} {x : Entry} {e : Text} (h : x.isValid)
    (hnames : ∀ name ∈ x.name?, name ∈ names) (he : LineEnd e) : Ordinary names (x.written ++ e) := by
  cases x with
  | imports name => exact ordinary_import h he (hnames name rfl)
  | markup space m =>
    simp only [isValid, Bool.and_eq_true] at h
    obtain ⟨⟨hspace, hm⟩, hun⟩ := h
    obtain ⟨u, k, hu, rfl⟩ := exists_unit hspace
    rw [written, append_assoc]
    exact ordinary_markup (Markup.spells_written hm hun) hm hu he

end Entry

structure Script where
  path : Text
  entries : List Entry
  terminated : Bool

namespace Script

def file (f : Script) : Text × Text := (f.path, sourceText (f.entries.map Entry.written) f.terminated)

def isValid (f : Script) : Bool := f.entries.all Entry.isValid

def imports (scripts : List Script) : List Text :=
  scripts.flatMap fun f => f.entries.filterMap Entry.name?

variable {scripts : List Script} {directory : List Text} {path text : Text}

theorem length_imports_le (h : ∀ f ∈ scripts, f.isValid) :
    (imports scripts).length ≤ size (scripts.map file) := by
  induction scripts with
  | nil => exact Nat.le_refl _
  | cons f scripts ih =>
    have hrest := ih (forall_mem_cons.mp h).2
    have hf := all_eq_true.mp (h f mem_cons_self)
    have hnames : (f.entries.filterMap Entry.name?).length ≤ f.entries.length := length_filterMap_le _ _
    have hlines : (f.entries.map Entry.written).length ≤ f.file.2.length := by
      refine length_le_sourceText (fun l hl => ?_) f.terminated
      obtain ⟨x, hx, rfl⟩ := mem_map.mp hl
      exact (Entry.line_signs (hf x hx)).1
    have hsize : size ((f :: scripts).map file) = f.file.2.length + size (scripts.map file) := rfl
    have himports : imports (f :: scripts) = f.entries.filterMap Entry.name? ++ imports scripts := rfl
    rw [hsize, himports, length_append]
    rw [length_map] at hlines
    omega

theorem ordinary_lines (h : ∀ f ∈ scripts, f.isValid)
    (hread : read? (scripts.map file) (.project directory) path = some text) :
    ∀ l ∈ Source.lines text, Ordinary (imports scripts).toFinset l.2 := by
  obtain ⟨found, hfile, rfl⟩ := Option.map_eq_some_iff.mp hread
  obtain ⟨f, hf, rfl⟩ := mem_map.mp (mem_of_find?_eq_some hfile)
  have hvalid := all_eq_true.mp (h f hf)
  have hsigns : ∀ l ∈ f.entries.map Entry.written, Unbroken l := by
    intro l hl
    obtain ⟨x, hx, rfl⟩ := mem_map.mp hl
    exact Entry.line_signs (hvalid x hx)
  intro l hl
  have hline : l.2 ∈ ended (f.entries.map Entry.written) f.terminated := by
    rw [← source_lines hsigns]
    exact mem_map_of_mem hl
  obtain ⟨l', hl', e, he, hend⟩ := exists_of_forall₂ (forall₂_ended _ _) hline
  obtain ⟨x, hx, rfl⟩ := mem_map.mp hl'
  rw [hend]
  refine Entry.ordinary (hvalid x hx) (fun name hname => ?_) he
  rw [mem_toFinset]
  exact mem_flatMap.mpr ⟨f, hf, mem_filterMap.mpr ⟨x, hx, hname⟩⟩

end Script

namespace Document

/-- Compiling a file ends whatever the files import: lines do not nest too deeply. It goes by a plan in which
no module occurs twice, and so no more are compiled inside each other than there are names that are
imported. -/
theorem compile_imports_terminates (tags : TagTable) (scripts : List Script) (path : Text)
    (h : ∀ f ∈ scripts, f.isValid = true) :
    (compile tags (scripts.map Script.file) path).fault ≠ some .tooDeep ∧
      ∃ p : Plan, p.modules.Nodup ∧ (∀ name ∈ p.modules, name ∈ Script.imports scripts) ∧
        p.depth ≤ (Script.imports scripts).toFinset.card ∧
        (p.compile path).runFrom (start tags (scripts.map Script.file) path) =
          (Compile.compileFile (handle tags (scripts.map Script.file) path) path).runFrom
            (start tags (scripts.map Script.file) path) := by
  obtain ⟨names, hnames⟩ : ∃ names, names = (Script.imports scripts).toFinset := ⟨_, rfl⟩
  obtain ⟨files, hfiles⟩ : ∃ files, files = scripts.map Script.file := ⟨_, rfl⟩
  have hcard : names.card ≤ Library.size files := by
    rw [hnames, hfiles]
    exact (List.toFinset_card_le _).trans (Script.length_imports_le h)
  have hready : Compile.Ready names names.card (start tags files path) := by
    refine ⟨⟨rfl, rfl, rfl, rfl⟩, fun path' text hread => ?_, ?_⟩
    · rw [hnames]
      rw [start, hfiles] at hread
      exact Script.ordinary_lines h hread
    · exact Finset.card_le_card Finset.sdiff_subset
  have hbound : 2 * names.card + 2 ≤ (start tags files path).depthBound := by
    simp only [Session.depthBound, start, List.length_nil]
    omega
  rw [← hnames, ← hfiles]
  cases hread : Library.read? files (.project (Library.directoryOf path)) path with
  | none =>
    obtain ⟨t, _, hopen⟩ := Compile.openFile_missing (s := start tags files path) hread
    have hrun : (Compile.compileFile (handle tags files path) path).runFrom (start tags files path) =
        (.error .missingFile, t) := Action.runFrom_bind_error hopen
    refine ⟨?_, .idle, List.nodup_nil, fun _ hm => absurd hm List.not_mem_nil, Nat.zero_le _, ?_⟩
    · rw [compile_eq hrun]
      intro hdeep
      cases hdeep
    · rw [hrun]
      exact Action.runFrom_bind_error hopen
  | some text =>
    obtain ⟨p, hp⟩ := Compile.file_planned _ hbound names _ path text hready hread
    have hmem : p.modules.toFinset ⊆ names := fun name hname => (hp.fresh name (List.mem_toFinset.mp hname)).1
    refine ⟨?_, p, hp.once, fun name hname => ?_, ?_, hp.run⟩
    · rcases hrun : (Compile.compileFile (handle tags files path) path).runFrom (start tags files path)
        with ⟨r, t⟩
      rw [compile_eq hrun]
      have hmild := hp.mild
      rw [hp.run] at hmild
      change FailsMildly ((Compile.compileFile (handle tags files path) path).runFrom _).1 at hmild
      rw [hrun] at hmild
      cases r with
      | ok _ =>
        intro hdeep
        cases hdeep
      | error f =>
        intro hdeep
        have hf : f = .tooDeep := Option.some.inj hdeep
        rw [hf] at hmild
        exact Bool.noConfusion (hmild _ rfl)
    · have hname' := hmem (List.mem_toFinset.mpr hname)
      rw [hnames] at hname'
      exact List.mem_toFinset.mp hname'
    · calc p.depth ≤ p.modules.length := p.depth_le
        _ = p.modules.toFinset.card := (List.toFinset_card_of_nodup hp.once).symm
        _ ≤ names.card := Finset.card_le_card hmem

/-- Two files that import themselves, each other, a shipped module and one that is nowhere. -/
def cyclicScripts : List Script :=
  [⟨"a.pyml", [.markup [] (.element "p" none false), .imports "a", .imports "b"],
      true⟩,
    ⟨"b.pyml", [.imports "a", .markup "\t" (.text "x"), .imports "b",
      .imports "lib.common", .imports "nowhere"], false⟩]

theorem compile_imports_terminates_cyclic :
    (∀ f ∈ cyclicScripts, f.isValid = true) ∧ (Script.imports cyclicScripts).toFinset.card = 4 ∧
      (compile [("*", ⟨.normal, none⟩)] (cyclicScripts.map Script.file) "a.pyml").fault ≠
        some .tooDeep := by
  refine ⟨by decide, by decide, ?_⟩
  exact (compile_imports_terminates _ cyclicScripts "a.pyml" (by decide)).1

end Document
end OutlineMarkup
