import OutlineMarkup.Document
import OutlineMarkup.Proofs.Lines

/-!
# Documents

Compiling a document handles its lines one after another and then closes what is open. Reports of
faults change neither whether a line succeeds nor what it writes, so a document is compiled by
handling its lines as they stand.
-/

namespace OutlineMarkup
open List Compile Action
variable {u : Text} {inv : Store → Prop}

open Source (joinFrom lines)

/-! ## The lines of a file -/

/-- The lines of a file with their line feeds, of which the last may be missing. -/
def ended : List Text → Bool → List Text
  | [], _ => []
  | [l], terminated => [if terminated then l ++ ['\n'] else l]
  | l :: ls, terminated => (l ++ ['\n']) :: ended ls terminated

theorem ended_cons_cons (l m : Text) (ls : List Text) (terminated : Bool) :
    ended (l :: m :: ls) terminated = (l ++ ['\n']) :: ended (m :: ls) terminated := rfl

theorem sourceText_cons_cons (l m : Text) (ls : List Text) (terminated : Bool) :
    sourceText (l :: m :: ls) terminated = l ++ '\n' :: sourceText (m :: ls) terminated := by
  cases terminated <;> simp [sourceText, Text.join]

def IsEnded (l x : Text) : Prop := ∃ e, LineEnd e ∧ x = l ++ e

theorem forall₂_ended (ls : List Text) (terminated : Bool) : Forall₂ IsEnded ls (ended ls terminated) := by
  induction ls with
  | nil => exact .nil
  | cons l ls ih =>
    cases ls with
    | nil =>
      refine .cons ?_ .nil
      cases terminated with
      | true => exact ⟨['\n'], .inr rfl, rfl⟩
      | false => exact ⟨[], .inl rfl, by simp⟩
    | cons m ls => exact .cons ⟨['\n'], .inr rfl, rfl⟩ ih

variable {ls : List Text} {l : Text}

theorem lines_sourceText_filter (h : ∀ l ∈ ls, '\n' ∉ l) (terminated : Bool) :
    (sourceText ls terminated).lines = (ended ls terminated).filter (!·.isEmpty) := by
  induction ls with
  | nil => cases terminated <;> rfl
  | cons l ls ih =>
    have hnl := h l mem_cons_self
    cases ls with
    | nil =>
      cases terminated with
      | true =>
        have hlines := Text.lines_append_newline hnl []
        simpa [sourceText, ended, Text.lines] using hlines
      | false =>
        by_cases hne : l = []
        · subst hne
          rfl
        · simpa [sourceText, ended, Text.join, hne] using Text.lines_of_not_mem hne hnl
    | cons m ls =>
      rw [sourceText_cons_cons, Text.lines_append_newline hnl, ended_cons_cons,
        ih (forall_mem_cons.mp h).2, filter_cons_of_pos (by simp)]

theorem lines_sourceText (h : ∀ l ∈ ls, l ≠ [] ∧ '\n' ∉ l) (terminated : Bool) :
    (sourceText ls terminated).lines = ended ls terminated := by
  rw [lines_sourceText_filter fun l hl => (h l hl).2, filter_eq_self]
  intro x hx
  obtain ⟨l, hl, e, _, rfl⟩ := exists_of_forall₂ (forall₂_ended ls terminated) hx
  simp [(h l hl).1]

theorem joinFrom_last (h : l.trimRight.getLast? ≠ some '\\') (n : Nat) (ls : List Text) :
    joinFrom n [] (l :: ls) = (n + 1, l) :: joinFrom (n + 1) [] ls := by
  have hlast : (l.trimRight.getLast? == some '\\') = false := beq_eq_false_iff_ne.mpr h
  simp only [joinFrom, hlast, Bool.false_eq_true, if_false]
  rfl

theorem last_ne_backslash (h : '\\' ∉ l) : l.trimRight.getLast? ≠ some '\\' := by
  intro hl
  exact h (Text.mem_of_mem_trimRight (mem_of_mem_getLast? hl))

theorem joinFrom_cons (h : '\\' ∉ l) (n : Nat) (ls : List Text) :
    joinFrom n [] (l :: ls) = (n + 1, l) :: joinFrom (n + 1) [] ls :=
  joinFrom_last (last_ne_backslash h) n ls

theorem joinFrom_append (h : ∀ l ∈ ls, '\\' ∉ l) (n : Nat) (xs : List Text) :
    joinFrom n [] (ls ++ xs) = joinFrom n [] ls ++ joinFrom (n + ls.length) [] xs := by
  induction ls generalizing n with
  | nil => rfl
  | cons l ls ih =>
    have hl := h l mem_cons_self
    have hlength : n + 1 + ls.length = n + (l :: ls).length := by rw [length_cons]; omega
    rw [cons_append, joinFrom_cons hl, joinFrom_cons hl, ih (forall_mem_cons.mp h).2, hlength]
    rfl

theorem joinFrom_lasts (h : ∀ l ∈ ls, l.trimRight.getLast? ≠ some '\\') (n : Nat) :
    (joinFrom n [] ls).map (·.2) = ls := by
  induction ls generalizing n with
  | nil => rfl
  | cons l ls ih =>
    rw [joinFrom_last (h l mem_cons_self), map_cons, ih (forall_mem_cons.mp h).2]

theorem joinFrom_eq_self (h : ∀ l ∈ ls, '\\' ∉ l) (n : Nat) : (joinFrom n [] ls).map (·.2) = ls :=
  joinFrom_lasts (fun l hl => last_ne_backslash (h l hl)) n

theorem length_le_sourceText (h : ∀ l ∈ ls, l ≠ []) (terminated : Bool) :
    ls.length ≤ (sourceText ls terminated).length := by
  induction ls with
  | nil => exact Nat.zero_le _
  | cons l ls ih =>
    have hl := length_pos_of_ne_nil (h l mem_cons_self)
    cases ls with
    | nil =>
      have hlength : l.length ≤ (sourceText [l] terminated).length := by
        cases terminated <;> simp [sourceText, Text.join]
      exact Nat.le_trans hl hlength
    | cons m ls =>
      have hrest := ih (forall_mem_cons.mp h).2
      rw [sourceText_cons_cons]
      simp only [length_cons, length_append] at hrest ⊢
      omega

theorem source_lines_filter (h : ∀ l ∈ ls, '\n' ∉ l ∧ l.trimRight.getLast? ≠ some '\\') (terminated : Bool) :
    (lines (sourceText ls terminated)).map (·.2) = (ended ls terminated).filter (!·.isEmpty) := by
  rw [lines, lines_sourceText_filter fun l hl => (h l hl).1]
  refine joinFrom_lasts (fun x hx => ?_) 0
  obtain ⟨l, hl, e, he, rfl⟩ := exists_of_forall₂ (forall₂_ended ls terminated) (mem_filter.mp hx).1
  rw [Text.trimRight_append_blank he.isBlank]
  exact (h l hl).2

/-- Neither empty, nor ended inside or continued on the next line. -/
abbrev Complete (l : Text) : Prop := l ≠ [] ∧ '\n' ∉ l ∧ l.trimRight.getLast? ≠ some '\\'

theorem source_lines_of_last (h : ∀ l ∈ ls, Complete l) (terminated : Bool) :
    (lines (sourceText ls terminated)).map (·.2) = ended ls terminated := by
  rw [source_lines_filter fun l hl => (h l hl).2,
    ← lines_sourceText_filter fun l hl => (h l hl).2.1, lines_sourceText fun l hl => ⟨(h l hl).1, (h l hl).2.1⟩]

abbrev Unbroken (l : Text) : Prop := l ≠ [] ∧ '\n' ∉ l ∧ '\\' ∉ l

theorem source_lines (h : ∀ l ∈ ls, Unbroken l) (terminated : Bool) :
    (lines (sourceText ls terminated)).map (·.2) = ended ls terminated :=
  source_lines_of_last (fun l hl => ⟨(h l hl).1, (h l hl).2.1, last_ne_backslash (h l hl).2.2⟩) terminated

theorem Does.lines {tags : TagTable} {α : Type} {as : List α}
    {f : α → Text} {xs : List Text} {handle : Handler} {g : α → Trace} (hxs : Forall₂ IsEnded (as.map f) xs)
    (h : ∀ a ∈ as, ∀ e, LineEnd e → Does tags u inv (handle (f a ++ e)) (g a)) :
    Does tags u inv (xs.forM handle) (as.flatMap g) := by
  rw [flatMap_def]
  refine Does.forM (Forall₂.flip (forall₂_map_left_iff.mpr ?_))
  refine (forall₂_mem (forall₂_map_left_iff.mp hxs)).imp fun a x hx => ?_
  obtain ⟨ha, _, e, he, rfl⟩ := hx
  exact h a ha e he

/-! ## Runs of documents -/

/-- The fault that is left once its message is reported. -/
def Fault.reported (f : Fault) : Fault :=
  match f.message? with
  | some _ => .stopped
  | none => f

namespace Compile
variable {handle : Handler} {s t : Session} {f : Fault} {line u : Text}
  {ls : List (Nat × Text)} {tags : TagTable}

theorem guardLine_ok {path : Text} {n : Nat} (h : (handle line).runFrom s = (.ok (), t)) :
    (guardLine handle path n line).runFrom s = (.ok (), t) := by
  rw [guardLine, runFrom_tryCatch, h]

theorem guardLine_error (path : Text) (n : Nat) (h : (handle line).runFrom s = (.error f, t)) :
    ((guardLine handle path n line).runFrom s).1 = .error f.reported := by
  rw [guardLine, runFrom_tryCatch, h, Fault.reported]
  cases hm : f.message? <;> simp [hm, runFrom_bind, report]

theorem guardLines_ok (path : Text) (h : ((ls.map (·.2)).forM handle).runFrom s = (.ok (), t)) :
    (ls.forM fun (n, line) => guardLine handle path n line).runFrom s = (.ok (), t) := by
  induction ls generalizing s with
  | nil => exact h
  | cons l ls ih =>
    rw [map_cons, runFrom_forM_cons] at h
    rw [runFrom_forM_cons]
    rcases hl : (handle l.2).runFrom s with ⟨_ | _, s'⟩
    · simp [hl] at h
    · rw [hl] at h
      rw [guardLine_ok hl]
      exact ih h

theorem guardLines_error (path : Text) (h : (((ls.map (·.2)).forM handle).runFrom s).1 = .error f) :
    ((ls.forM fun (n, line) => guardLine handle path n line).runFrom s).1 = .error f.reported := by
  induction ls generalizing s with
  | nil => cases h
  | cons l ls ih =>
    rw [map_cons, runFrom_forM_cons] at h
    rw [runFrom_forM_cons]
    rcases hl : (handle l.2).runFrom s with ⟨g | _, s'⟩
    · rw [hl] at h
      cases h
      have hguard := guardLine_error path l.1 hl
      rcases hrun : (guardLine handle path l.1 l.2).runFrom s with ⟨r, s''⟩
      rw [hrun] at hguard
      obtain rfl : r = .error f.reported := hguard
      rfl
    · rw [hl] at h
      rw [guardLine_ok hl]
      exact ih h

theorem unrollAll_idle (handle : Handler) (hloops : s.loops = []) (n : Nat) :
    (unrollAll handle (n + 1)).runFrom s = (.ok (), s) := by
  rw [unrollAll]
  simp [runFrom_bind, hloops]

theorem unrollAll_once {loop : Loop} {rest : List Loop} (hloops : s.loops = loop :: rest)
    (hrun : (unrollLoop handle).runFrom s = (.ok (), t)) (ht : t.loops = []) :
    (unrollAll handle s.depthBound).runFrom s = (.ok (), t) := by
  obtain ⟨n, hn⟩ : ∃ n, s.depthBound = n + 1 + 1 := by
    have hbound : 1000 ≤ s.depthBound := Nat.le_add_right _ _
    exact ⟨s.depthBound - 2, by omega⟩
  have hopen : s.loops.isEmpty = false := by rw [hloops]; rfl
  rw [hn, unrollAll]
  simp only [runFrom_bind, runFrom_get, hopen, Bool.false_eq_true, if_false, hrun, unrollAll_idle handle ht]

theorem closeAll_closes (hblock : s.block = none) (hdefining : s.defining = none)
    (hunroll : (unrollAll handle s.depthBound).runFrom s = (.ok (), t)) (hunit : t.KnowsUnit u 0)
    (hknown : t.page.Known t.tags) (hu : Indents u) : (closeAll handle).runFrom s =
      (.ok (), t.withPage ((Page.pop t.tags u)^[t.page.elements.length] t.page)) := by
  have hdef := Session.isDefining_eq_false hdefining
  have hclose := closeTimes_run hunit hu hknown t.page.elements.length
  rw [Page.close, if_pos (Nat.le_refl _)] at hclose
  simp only [closeAll, runFrom_bind, runFrom_get, hblock, hdef, hunroll,
    Option.isSome_none, Bool.false_eq_true, if_false]
  exact hclose

theorem unrollAll_bound (handle : Handler) (hloops : s.loops = []) :
    (unrollAll handle s.depthBound).runFrom s = (.ok (), s) := by
  have hbound : s.depthBound = (s.depthBound - 1) + 1 := by
    have : 1000 ≤ s.depthBound := Nat.le_add_right _ _
    omega
  rw [hbound]
  exact unrollAll_idle handle hloops _

theorem closeAll_unrolled (hblock : s.block = none)
    (hdefining : s.defining = none) (hunroll : (unrollAll handle s.depthBound).runFrom s = (.ok (), t))
    (ht : t.Idle tags u) (hu : Indents u) : (closeAll handle).runFrom s =
      (.ok (), t.withPage ((Page.pop tags u)^[t.page.elements.length] t.page)) := by
  rw [← ht.table]
  exact closeAll_closes hblock hdefining hunroll (ht.knowsUnit (k := 0)) ht.known hu

theorem closeAll_run (handle : Handler) (hs : s.Idle tags u) (hu : Indents u) :
    (closeAll handle).runFrom s =
      (.ok (), s.withPage ((Page.pop tags u)^[s.page.elements.length] s.page)) :=
  closeAll_unrolled hs.block hs.defining (unrollAll_bound handle hs.loops) hs hu

end Compile

/-- A compilation ends without a fault, with this output. -/
abbrev Compiled.Writes (c : Compiled) (output : Text) : Prop := c.fault = none ∧ c.output = output

namespace Document

def start (tags : TagTable) (files : Files) (path : Text) : Session :=
  { tags, files, place := .project (Library.directoryOf path) }

abbrev HasFile (files : Files) (path text : Text) : Prop :=
  Library.read? files (.project (Library.directoryOf path)) path = some text

variable {tags : TagTable} {files : Files} {path text : Text} {s t : Session} {f : Fault}

abbrev handle (tags : TagTable) (files : Files) (path : Text) : Text → Compile Unit :=
  Compile.lineTo (start tags files path).depthBound

theorem compileFile_run (tags : TagTable) (hread : HasFile files path text) :
    (compileFile (handle tags files path) path).runFrom (start tags files path) = (do
        (lines text).forM fun (n, line) => guardLine (handle tags files path) path n line
        closeAll (handle tags files path) : Compile Unit).runFrom (start tags files path) := by
  have hopen : (openFile path).runFrom (start tags files path) = (.ok text, start tags files path) := by
    have hread' : Library.read? (start tags files path).files (start tags files path).place path =
      some text := hread
    simp [openFile, runFrom_bind, hread']
  rw [compileFile, runFrom_bind_ok hopen]

theorem compile_eq {r : Except Fault Unit}
    (h : (compileFile (handle tags files path) path).runFrom (start tags files path) = (r, t)) :
    compile tags files path = ⟨t.output, t.messages, t.missing, faultOf? r⟩ := by
  unfold handle start at h
  simp [compile, compileIn, h]

section Run
variable (hread : HasFile files path text)
  (hrun : (((Source.lines text).map (·.2)).forM (handle tags files path)).runFrom (start tags files path) = (.ok (), s))
  (hclose : (closeAll (handle tags files path)).runFrom s = (.ok (), t))
include hread hrun hclose

theorem compileFile_of_ok :
    (compileFile (handle tags files path) path).runFrom (start tags files path) = (.ok (), t) := by
  rw [compileFile_run tags hread, runFrom_bind_ok (guardLines_ok path hrun), hclose]

theorem compile_of_ok : (compile tags files path).Writes t.output := by
  rw [compile_eq (compileFile_of_ok hread hrun hclose)]
  exact ⟨rfl, rfl⟩

end Run

theorem compile_of_error (hread : HasFile files path text)
    (hrun : ((((lines text).map (·.2)).forM (handle tags files path)).runFrom
      (start tags files path)).1 = .error f) : (compile tags files path).fault = some f.reported := by
  have hg := guardLines_error path hrun
  have hfile := compileFile_run tags hread
  rcases hguard : ((lines text).forM fun (n, line) =>
    guardLine (handle tags files path) path n line).runFrom (start tags files path) with ⟨r, t⟩
  rw [hguard] at hg
  obtain rfl : r = .error f.reported := hg
  rw [runFrom_bind_error hguard] at hfile
  rw [compile_eq hfile]
  rfl

/-! ## Outlines -/

theorem idle_start (u : Text) : (start tags files path).Idle tags u :=
  ⟨rfl, rfl, rfl, rfl, rfl, .inr ⟨rfl, Nat.zero_le _⟩, ⟨Int.le_refl _, fun _ => rfl⟩,
    ⟨by simp [start, Session.page], by simp [start, Session.page]⟩⟩

theorem length_le_size {text : Text} (hread : HasFile files path text) : text.length ≤ Library.size files := by
  obtain ⟨file, hfile, rfl⟩ := Option.map_eq_some_iff.mp hread
  have hmem := mem_of_find?_eq_some hfile
  clear hread hfile
  induction files with
  | nil => cases hmem
  | cons first files ih =>
    have hsize : Library.size (first :: files) = first.2.length + Library.size files := rfl
    rw [hsize]
    rcases mem_cons.mp hmem with rfl | hmem
    · exact Nat.le_add_right _ _
    · exact (ih hmem).trans (Nat.le_add_left _ _)

theorem handle_eq (tags : TagTable) (hread : HasFile files path text) :
    ∃ n, 999 + 4 * text.length ≤ n ∧ handle tags files path = lineTo (n + 1) := by
  have hlength := length_le_size hread
  have hbound : (start tags files path).depthBound = 1000 + 4 * Library.size files := by
    simp [start, Session.depthBound]
  refine ⟨999 + 4 * Library.size files, by omega, ?_⟩
  rw [handle, hbound]
  congr 1
  omega

end Document

theorem WellIndented.climbs {t : Trace} (h : WellIndented (t.map (·.1))) : t.Climbs 0 := by
  have go : ∀ (t : Trace) (n : Nat), (∀ d ∈ (t.map (·.1)).head?, d ≤ n) →
      (t.map (·.1)).IsChain (fun d e => e ≤ d + 1) → t.Climbs n := by
    intro t
    induction t with
    | nil => intros; trivial
    | cons x t ih =>
      intro n hhead hchain
      refine ⟨hhead x.1 rfl, ih (x.1 + 1) ?_ hchain.tail⟩
      intro d hd
      exact hchain.rel_head? hd
  exact go t 0 (fun d hd => (h.2 d hd).le) h.1

namespace Outline

def trace (o : Outline) : Trace := o.map fun (k, m) => (k, some m)

theorem trace_append (o q : Outline) : trace (o ++ q) = o.trace ++ q.trace := map_append

variable {o : Outline}

theorem climbs_trace (h : WellIndented o.depths) : o.trace.Climbs 0 := by
  refine WellIndented.climbs ?_
  rwa [trace, map_map]

theorem mem_lines {l : Text} (hp : o.isPlain) (h : l ∈ o.lines u) :
    ∃ k m, l = u.times k ++ m.written ∧ m.isPlain ∧ isUnreserved m.written ∧ (k, m) ∈ o := by
  obtain ⟨⟨k, m⟩, hm, rfl⟩ := mem_map.mp h
  have hplain := all_eq_true.mp hp _ hm
  rw [Bool.and_eq_true] at hplain
  exact ⟨k, m, rfl, hplain.1, hplain.2, hm⟩

end Outline

theorem indented_signs {tag : Text} {k : Nat} (hu : isUnit u) (htag : tag ≠ [])
    (hnl : '\n' ∉ tag) (hslash : '\\' ∉ tag) : Unbroken (u.times k ++ tag) := by
  refine ⟨by simp [htag], ?_, ?_⟩
  · simp [feed_not_mem_times hu, hnl]
  · simp [not_mem_times hu (c := '\\') rfl, hslash]

theorem Calm.line_signs {tag : Text} {k : Nat} (h : Calm tag) (hu : isUnit u) :
    Unbroken (u.times k ++ tag) :=
  indented_signs hu h.solid.ne_nil (h.not_mem (c := '\n') (by simp)) (h.not_mem (c := '\\') (by simp))

theorem Outline.line_signs {o : Outline} (hp : o.isPlain) (hu : isUnit u) : ∀ l ∈ o.lines u, Unbroken l := by
  intro l hl
  obtain ⟨k, m, rfl, hm, hun, _⟩ := mem_lines hp hl
  exact (Markup.spells_written hm hun).calm.line_signs hu

theorem Does.outline {tags : TagTable} {handle : Handler}
    {o : Outline} {xs : List Text} (hu : isUnit u) (hp : o.isPlain) (hxs : Forall₂ IsEnded (o.lines u) xs)
    (hfree : ∀ st, inv st → ∀ x ∈ o, ∀ name ∈ x.2.name?, st.methods.get? name = none) :
    Does tags u inv (xs.forM (line handle)) o.trace := by
  have htrace : o.trace = o.flatMap fun x => [(x.1, some x.2)] := by
    rw [Outline.trace, map_eq_flatMap]
  rw [htrace]
  refine Does.lines hxs fun x hx e he => ?_
  have hplain := all_eq_true.mp hp x hx
  rw [Bool.and_eq_true] at hplain
  rw [append_assoc]
  exact Does.markup (Markup.spells_written hplain.1 hplain.2) hplain.1 hu he
    fun st hst name hname => hfree st hst x hx name hname

namespace Document
variable {tags : TagTable} {files : Files} {path u text : Text} {s : Session} {t : Trace} {o : Outline}
  {terminated : Bool}

/-- A document leaves a page, or fails where there is none. -/
def Renders (tags : TagTable) (u : Text) (files : Files) (path : Text) : Except Fault Page → Prop
  | .ok p => (compile tags files path).Writes (p.output tags u)
  | .error _ => ∃ g, (compile tags files path).fault = some g

/-- If the lines of a document run like an action that ends in an idle session or a fault, then the
document ends so. -/
theorem compile_of_ends {x : Compile Unit} {r : Except Fault Page} (hu : Indents u)
    (hread : HasFile files path text)
    (hrun : (((lines text).map (·.2)).forM (handle tags files path)).runFrom
      (start tags files path) = x.runFrom s) : Ends tags u inv x s r → Renders tags u files path r := by
  intro h
  cases r with
  | error f =>
    refine ⟨_, compile_of_error hread (f := f) ?_⟩
    rw [hrun]
    exact h
  | ok p =>
    obtain ⟨s', hs', rfl, hi, _⟩ := h
    rw [hs'] at hrun
    exact compile_of_ok hread hrun (closeAll_run _ hi hu)

/-- If the lines of a document run like lines that do what a trace does, from a session with a blank
page, then its output is what the trace leaves on the page. -/
theorem compile_of_does (inv : Store → Prop) (ls : List Text) (hu : isUnit u)
    (hread : HasFile files path text)
    (hrun : (((lines text).map (·.2)).forM (handle tags files path)).runFrom
      (start tags files path) = (ls.forM (handle tags files path)).runFrom s)
    (hi : s.Idle tags u) (hs : inv s.store) (hpage : s.page = {}) (hc : t.Climbs 0)
    (hdoes : Does tags u inv (ls.forM (handle tags files path)) t) :
    Renders tags u files path (({} : Page).follow tags u t) := by
  have hroom : t.Climbs s.page.room := by rwa [hpage]
  rw [← hpage]
  exact compile_of_ends (indents_of_isUnit hu) hread hrun (hdoes s hi hs (.inr hroom))

theorem compile_outline (tags : TagTable) (hu : isUnit u)
    (hread : HasFile files path (sourceText (o.lines u) terminated))
    (hp : o.isPlain) (hw : WellIndented o.depths) :
    Renders tags u files path (({} : Page).follow tags u o.trace) := by
  obtain ⟨n, _, hn⟩ := handle_eq tags hread
  refine compile_of_does (fun st => st.methods = []) (ended (o.lines u) terminated) hu hread
    (by rw [source_lines (Outline.line_signs hp hu)]) (idle_start u) rfl rfl (Outline.climbs_trace hw) ?_
  rw [hn]
  exact Does.outline hu hp (forall₂_ended _ terminated) fun st hst _ _ _ _ => by rw [hst]; rfl

end Document
end OutlineMarkup
