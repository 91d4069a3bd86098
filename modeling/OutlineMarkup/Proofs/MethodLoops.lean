import OutlineMarkup.Proofs.Defining
import OutlineMarkup.Proofs.OpenLoops

/-!
# Loops in methods

While a method is being defined, a loop among its lines is collected like any other. When it ends,
its calls are kept with the method. The line that ends it has lost the indentation of the body by
then, and is handled once more like a line of the file; so it is kept one level less deep than it is
written, and if it is written one level deep it ends the method.
-/

namespace OutlineMarkup
open Action List Compile Template Session Item Page Table Routines

namespace Compile
variable {handle : Handler} {u tag e v name : Text} {items : List Text} {k : Nat}
  {s : Session}

theorem isMethodStart_indented (hu : isUnit u) : isMethodStart (sourceLine u (k + 1) tag e) = false := by
  obtain ⟨hne, hblank⟩ := (isUnit_iff u).mp hu
  obtain ⟨c, w, rfl⟩ := exists_cons_of_ne_nil hne
  have hc : ('d' == c) = false := by
    rcases hblank c mem_cons_self with rfl | rfl <;> rfl
  have hcut : sourceLine (c :: w) (k + 1) tag e = c :: (w ++ sourceLine (c :: w) k tag e) := by
    rw [sourceLine, Text.times_succ]
    simp [sourceLine]
  rw [isMethodStart, hcut]
  simp [isPrefixOf, hc]

/-- While a method is being defined, lines of loops have lost the indentation of its body. -/
theorem line_defining_eq_loopLine (handle : Handler) (ht : Text.Solid tag) (hh : tag.head? ≠ some '#')
    (hx : Shorthand.expand (sourceLine u (k + 1) tag e) = .ok (sourceLine u (k + 1) tag e))
    (hverbatim : declaresVerbatim tag = false) (hu : isUnit u) (he : LineEnd e)
    (hreads : s.Reads u (k + 1)) (hblock : s.block = none) (hverbatims : s.verbatims = [])
    (hdefining : s.isDefining) (hopen : s.loops ≠ [] ∨ isLoopStart tag) :
    (line handle (sourceLine u (k + 1) tag e)).runFrom s =
      (loopLine handle (sourceLine u k tag e)).runFrom (s.learn u (k + 1)) := by
  have htrim := ht.trim_sourceLine (k := k + 1) hu he
  have hcut : (sourceLine u (k + 1) tag e).drop u.length = sourceLine u k tag e := by
    rw [sourceLine, Text.times_succ, append_assoc, drop_left]
    rfl
  have hunit : (s.learn u (k + 1)).indentation.unit = some u := by simp [learn]
  have hdefining' : (s.learn u (k + 1)).isDefining := hdefining
  have hblock' : (s.learn u (k + 1)).block = none := hblock
  have hloop : (!(s.learn u (k + 1)).loops.isEmpty || isLoopStart tag) := by
    rcases hopen with hopen | hstart
    · have hempty : (s.learn u (k + 1)).loops.isEmpty = false := isEmpty_eq_false_iff.mpr hopen
      simp [hempty]
    · simp [hstart]
  rw [line_eq_plainLine hu hreads hblock hverbatims ht hh he hx]
  simp only [plainLine, methodLine, runFrom_bind, runFrom_get, htrim, hverbatim,
    hdefining', isMethodStart_indented hu, depthOf_learnt ht hu hreads, Nat.succ_ne_zero, hblock', hloop,
    hunit, hcut, Option.all_none, Bool.not_true, Bool.false_and, Bool.true_or, Bool.true_and,
    Bool.false_eq_true, if_false, if_true]
  rcases (loopLine handle (sourceLine u k tag e)).runFrom (s.learn u (k + 1)) with ⟨_ | _, t⟩ <;>
    simp

theorem loopLine_start (handle : Handler) (h : IsLoop v items) (hu : isUnit u)
    (he : LineEnd e) (hunit : s.indentation.unit = some u)
    (hdefining : s.defining = some name) (hfresh : s.globals.get? ('$' :: v) = none) :
    (loopLine handle (sourceLine u k (loopText v items) e)).runFrom s = (.ok (), s.withLoop v k items) := by
  have hsolid := IsHeader.solid v items
  have htrim := hsolid.trim_sourceLine (k := k) hu he
  have hdepth : (depthOf (sourceLine u k (loopText v items) e)).runFrom s = (.ok k, s) := by
    rw [depthOf_sourceLine hsolid hu (.inl hunit), learn_of_unit hunit]
  have hstart : isLoopStart (loopText v items) := rfl
  have henter : (enter k (some none)).runFrom s = (.ok (), s.withPage s.page) := by
    have hisdef := isDefining_eq_true hdefining
    simp only [enter, runFrom_bind, runFrom_get, hisdef, if_true, runFrom_pure]
    rfl
  have hrun := startLoop_run h.header hfresh henter
  simp only [loopLine, runFrom_bind, htrim, hdepth, hstart, if_true]
  exact hrun

theorem loopCall_defining (handle : Handler) (items : List Text) (n k : Nat) (hu : isUnit u) {w : Text} (hw : isBareWord w)
    (hun : isUnreserved w) (hunit : s.indentation.unit = some u) {m : Method}
    (hdefining : s.defining = some name) (hm : s.methods.get? name = some m) :
    let l : BodyLine := ⟨false, sourceLine u k (call (loopName n) (some [w]) false).written [], []⟩
    (loopCall handle ⟨loopName n, k, items⟩ w).runFrom s =
        (.ok (), s.withMethod name { m with lines := m.lines ++ [l] }) ∧
      Keeps u (k + 1, (call (loopName n) (some [w]) false).literal) l := by
  have hcalm := ReadAs.calm (readAs_written (isPlain_loopCall n hw)
    (isUnreserved_loopCall n hun))
  have hblanks : (blanks (k : Int)).runFrom s = (.ok (u.times k), s) := blanks_run (.inl hunit)
  refine ⟨?_, rfl, [], .inl rfl, ?_⟩
  · simp only [loopCall, runFrom_bind, hblanks, runFrom_get, hdefining, updateMethod_run hm,
      sourceLine_loopCall, hcalm.addLine hu (.inl rfl)]
  · rw [source_literal]
    rfl

end Compile

/-! ## Gathering methods -/

def loopCalls (n k : Nat) (items : List Text) : List (Nat × Item Template) :=
  items.map fun w => (k, (Item.call (Compile.loopName n) (some [w]) false).literal)

/-- The methods are those of the routines, `n` loops have been started, and nothing has been placed
yet. -/
structure Gathers (tags : TagTable) (u : Text) (R : Routines) (n : Nat) (defining : Option Text)
    (loops : List Loop) (s : Session) : Prop where
  table : s.tags = tags
  block : s.block = none
  verbatims : s.verbatims = []
  dropMarks : s.dropMarks = false
  globals : s.globals = []
  defining : s.defining = defining
  loops : s.loops = loops
  page : ∃ k, s.page = ({} : Page).atLevel k
  holds : R.Holds u s.methods
  serials : ∀ name m, s.methods.get? name = some m → m.serial < s.serials
  count : s.loopCount = n

namespace Gathers
variable {tags : TagTable} {u e name v : Text} {R : Routines} {n n' k j : Nat} {d : Option Text}
  {loops : List Loop} {items : List Text} {s : Session} {r : Routine} {i : Item Template} {m : Method}

theorem learn (h : Gathers tags u R n d loops s) (k : Nat) : Gathers tags u R n d loops (s.learn u k) :=
  ⟨h.table, h.block, h.verbatims, h.dropMarks, h.globals, h.defining, h.loops, h.page, h.holds, h.serials,
    h.count⟩

theorem withLevel (h : Gathers tags u R n d loops s) (k : Nat) :
    Gathers tags u R n d loops (s.withLevel k) := by
  obtain ⟨j, hpage⟩ := h.page
  have hlevel : (s.withLevel k).page = s.page.atLevel k := rfl
  exact ⟨h.table, h.block, h.verbatims, h.dropMarks, h.globals, h.defining, h.loops,
    ⟨k, by rw [hlevel, hpage, atLevel_atLevel]⟩, h.holds, h.serials, h.count⟩

theorem popLoop {loop : Loop} (h : Gathers tags u R n d (loop :: loops) s) (k : Nat) :
    Gathers tags u R n d loops (s.popLoop k loops) := by
  have hlevel := h.withLevel k
  exact ⟨hlevel.table, hlevel.block, hlevel.verbatims, hlevel.dropMarks, hlevel.globals, hlevel.defining,
    rfl, hlevel.page, hlevel.holds, hlevel.serials, hlevel.count⟩

theorem withLine (h : Gathers tags u R n d loops s) (hr : R name = some r)
    (hm : s.methods.get? name = some m) {x : Nat × Item Template} {l : BodyLine} (hl : Keeps u x l) :
    Gathers tags u (R.set name { r with body := r.body ++ [x] }) n d loops
      (s.withMethod name { m with lines := m.lines ++ [l] }) := by
  obtain ⟨m', hm', hstands⟩ := h.holds.found hr
  obtain rfl : m = m' := Option.some.inj (hm.symm.trans hm')
  refine ⟨h.table, h.block, h.verbatims, h.dropMarks, h.globals, h.defining, h.loops, h.page, ?_, ?_, h.count⟩
  · refine h.holds.insert (get?_set_self _ _ _)
      ⟨hstands.parameters, hstands.own, rel_append hstands.lines (.cons hl .nil)⟩
      (fun a ha => get?_set_ne _ ha _) fun hown a m' ha hm' hown' heq => ha ?_
    exact h.holds.serials hm' hm hown' hown heq
  · intro a m' hm'
    by_cases ha : a = name
    · subst ha
      have hset : (s.methods.set a { m with lines := m.lines ++ [l] }).get? a = some m' := hm'
      rw [get?_set_self] at hset
      cases hset
      exact h.serials a m hm
    · have hset : (s.methods.set name { m with lines := m.lines ++ [l] }).get? a = some m' := hm'
      rw [get?_set_ne _ ha] at hset
      exact h.serials a m' hset

theorem newMethod (h : Gathers tags u R n d loops s) (name : Text) (hm : m.serial = s.serials)
    (hlines : m.lines = []) (hparameters : m.parameters = r.names.map ('$' :: ·))
    (hown : m.ownVariables = r.own) (hbody : r.body = []) : (R.set name r).Holds u (s.methods.set name m) ∧
      ∀ a m', (s.methods.set name m).get? a = some m' → m'.serial < s.serials + 1 := by
  refine ⟨h.holds.insert (get?_set_self _ _ _) ⟨hparameters, hown, ?_⟩
    (fun a ha => get?_set_ne _ ha _) fun _ a m' _ hm' _ => ?_, fun a m' hm' => ?_⟩
  · rw [hbody, hlines]
    exact .nil
  · rw [hm]
    exact (h.serials a m' hm').ne
  · by_cases ha : a = name
    · rw [ha, get?_set_self] at hm'
      cases hm'
      rw [hm]
      exact Nat.lt_succ_self _
    · rw [get?_set_ne _ ha] at hm'
      exact (h.serials a m' hm').trans (Nat.lt_succ_self _)

theorem header (h : Gathers tags u R n d [] s) (handle : Handler) {p : Procedure}
    (hp : p.IsDefinable) (hun : isUnreserved p.header) (hfree : tags.has p.name = false)
    (hu : isUnit u) (he : LineEnd e) (hunit : s.indentation.unit = some u ∨ s.indentation.unit = none) :
    (line handle (p.header ++ e)).runFrom s = (.ok (), s.define p) ∧
      Gathers tags u (R.set p.name ⟨p.names, true, []⟩) n (some p.name) [] (s.define p) := by
  refine ⟨line_header handle hp hun (by rwa [h.table]) he hu
    (hunit.imp id fun h => ⟨h, Nat.zero_le _⟩) h.block h.verbatims h.loops, ?_⟩
  obtain ⟨hholds, hserials⟩ := h.newMethod p.name (r := ⟨p.names, true, []⟩)
    (m := p.method s.serials) rfl rfl rfl rfl rfl
  obtain ⟨k, hpage⟩ := h.page
  have hlevel : (s.define p).page = s.page.atLevel 0 := rfl
  exact ⟨h.table, h.block, h.verbatims, h.dropMarks, h.globals, rfl, h.loops,
    ⟨0, by rw [hlevel, hpage, atLevel_atLevel]⟩, hholds, hserials, h.count⟩

theorem kept (h : Gathers tags u R n (some name) [] s) (handle : Handler)
    (hr : R name = some r) (hi : Calm (i.map source).written) (hu : isUnit u)
    (he : LineEnd e) (hreads : s.Reads u (k + 1)) :
    ∃ s', (line handle (sourceLine u (k + 1) (i.map source).written e)).runFrom s =
        (.ok (), s') ∧ s'.indentation.unit = some u ∧
      Gathers tags u (R.set name { r with body := r.body ++ [(k + 1, i)] }) n (some name) [] s' := by
  obtain ⟨m, hm, _⟩ := h.holds.found hr
  have hline := line_kept handle hi he hu hreads h.block h.verbatims h.loops h.dropMarks
    h.defining hm
  exact ⟨_, hline, by simp [Session.learn], (h.learn (k + 1)).withLine hr hm ⟨rfl, e, he, rfl⟩⟩

theorem start (h : Gathers tags u R n (some name) [] s) (handle : Handler)
    (hl : IsLoop v items) (hu : isUnit u) (he : LineEnd e) (hreads : s.Reads u (k + 1)) :
    ∃ s', (line handle (sourceLine u (k + 1) (loopText v items) e)).runFrom s = (.ok (), s') ∧
      s'.indentation.unit = some u ∧ Gathers tags u (R.set (loopName n) ⟨[v], false, []⟩) (n + 1) (some name)
        [⟨loopName n, k, items⟩] s' := by
  have hdefining := Session.isDefining_eq_true h.defining
  have hline := line_defining_eq_loopLine handle (IsHeader.solid v items)
    (by simp [loopText]) (hl.header.expand_sourceLine hu he) hl.header.undeclared hu he
    hreads h.block h.verbatims hdefining (.inr rfl)
  have hs := h.learn (k + 1)
  have hunit : (s.learn u (k + 1)).indentation.unit = some u := by simp [Session.learn]
  generalize s.learn u (k + 1) = t at hline hs hunit
  have hstart := loopLine_start handle hl hu he hunit hs.defining (by rw [hs.globals]; rfl) (k := k)
  obtain rfl : t.loopCount = n := hs.count
  obtain ⟨hholds, hserials⟩ := hs.newMethod (loopName t.loopCount)
    (r := ⟨[v], false, []⟩)
    (m := ⟨loopName t.loopCount, ['$' :: v], false, [], [], t.serials⟩) rfl rfl rfl rfl rfl
  refine ⟨_, hline.trans hstart, hunit, hs.table, hs.block, hs.verbatims, hs.dropMarks, hs.globals,
    hs.defining, ?_, hs.page, hholds, hserials, rfl⟩
  change _ :: t.loops = _
  rw [hs.loops]

section Record
variable (h : Gathers tags u R n (some name) [⟨loopName n', k, items⟩] s)
  (handle : Handler) (hr : R (loopName n') = some r)
include h handle hr

theorem record (hi : Calm (i.map source).written) (hu : isUnit u) (he : LineEnd e)
    (hunit : s.indentation.unit = some u) (hj : 1 ≤ j) :
    ∃ s', (line handle (sourceLine u (k + 1 + j) (i.map source).written e)).runFrom s =
        (.ok (), s') ∧ s'.indentation.unit = some u ∧
      Gathers tags u (R.set (loopName n') { r with body := r.body ++ [(j, i)] }) n (some name)
        [⟨loopName n', k, items⟩] s' := by
  have hdefining := isDefining_eq_true h.defining
  have hline := line_defining_eq_loopLine handle (k := k + j) hi.solid
    (hi.head?_ne rfl (by decide)) (hi.expand_sourceLine hu he) hi.declaresVerbatim hu he (.inl hunit)
    h.block h.verbatims hdefining (.inl (by rw [h.loops]; simp))
  rw [learn_of_unit hunit] at hline
  have hdepth : (depthOf (sourceLine u (k + j) (i.map source).written e)).runFrom s = (.ok (k + j), s) := by
    rw [depthOf_sourceLine hi.solid hu (.inl hunit), learn_of_unit hunit]
  obtain ⟨m, hm, _⟩ := h.holds.found hr
  have hinside := loopLine_inside handle hi hu he h.loops hdepth hunit hm (by omega)
  have hsum : k + 1 + j = k + j + 1 := by omega
  rw [hsum]
  refine ⟨_, hline.trans hinside, hunit, (h.withLevel (k + j)).withLine hr hm ⟨rfl, e, he, ?_⟩⟩
  have hdrop : k + j - k - 1 = j - 1 := by omega
  rw [hdrop]

theorem records {body : Body}
    (hbody : ∀ x ∈ body, Calm (x.2.map source).written) (hdepths : ∀ x ∈ body, 1 ≤ x.1)
    (hu : isUnit u) (hunit : s.indentation.unit = some u) {xs : List Text} (hxs : Forall₂ IsEnded
      (body.map fun x => u.times (k + 1 + x.1) ++ (x.2.map source).written) xs) :
    ∃ s', (xs.forM (line handle)).runFrom s = (.ok (), s') ∧ s'.indentation.unit = some u ∧
      Gathers tags u (R.set (loopName n') { r with body := r.body ++ body }) n (some name)
        [⟨loopName n', k, items⟩] s' := by
  induction body generalizing R r s xs with
  | nil =>
    cases hxs
    refine ⟨s, rfl, hunit, ?_⟩
    rw [append_nil, set_eq_self hr]
    exact h
  | cons x body ih =>
    rcases hxs with _ | ⟨⟨e, he, rfl⟩, hxs⟩
    obtain ⟨s₁, hrun₁, hunit₁, hs₁⟩ := h.record handle hr (hbody x mem_cons_self) hu he hunit
      (hdepths x mem_cons_self)
    obtain ⟨s₂, hrun₂, hunit₂, hs₂⟩ := ih hs₁ (set_self _ _)
      (forall_mem_cons.mp hbody).2 (forall_mem_cons.mp hdepths).2
      hunit₁ hxs
    rw [Routines.set_set, append_assoc] at hs₂
    refine ⟨s₂, ?_, hunit₂, hs₂⟩
    rw [sourceLine] at hrun₁
    rw [runFrom_forM_cons, append_assoc, hrun₁]
    exact hrun₂

end Record

theorem calls (h : Gathers tags u R n (some name) [] s) (handle : Handler)
    (hr : R name = some r) (hu : isUnit u) (hunit : s.indentation.unit = some u)
    (ws : List Text) (hws : ∀ w ∈ ws, isBareWord w ∧ isUnreserved w) :
    ∃ s', (ws.forM (loopCall handle ⟨loopName n', k, items⟩)).runFrom s = (.ok (), s') ∧
      s'.indentation.unit = some u ∧
      Gathers tags u (R.set name { r with body := r.body ++ loopCalls n' (k + 1) ws }) n (some name) []
        s' := by
  induction ws generalizing R r s with
  | nil =>
    refine ⟨s, rfl, hunit, ?_⟩
    rw [loopCalls, map_nil, append_nil, set_eq_self hr]
    exact h
  | cons w ws ih =>
    obtain ⟨m, hm, _⟩ := h.holds.found hr
    obtain ⟨hword, hun⟩ := hws w mem_cons_self
    obtain ⟨hrun, hkeeps⟩ := loopCall_defining handle items n' k hu hword hun
      hunit h.defining hm
    obtain ⟨s', hrest, hunit', hs'⟩ := ih (h.withLine hr hm hkeeps) (set_self _ _) hunit
      (forall_mem_cons.mp hws).2
    refine ⟨s', ?_, hunit', ?_⟩
    · rw [runFrom_forM_cons, hrun]
      exact hrest
    · rw [Routines.set_set, append_assoc] at hs'
      exact hs'

theorem ended (h : Gathers tags u R n (some name) [⟨loopName n', k, items⟩] s)
    (handle : Handler) (hr : R name = some r)
    (hitems : ∀ w ∈ items, isBareWord w ∧ isUnreserved w) {tag : Text} (htag : Calm tag)
    (hu : isUnit u) (he : LineEnd e) (hunit : s.indentation.unit = some u) (hj : j ≤ k) :
    ∃ s', (line handle (sourceLine u (j + 1) tag e)).runFrom s =
        (handle (sourceLine u j tag e)).runFrom s' ∧ s'.indentation.unit = some u ∧
      Gathers tags u (R.set name { r with body := r.body ++ loopCalls n' (k + 1) items }) n (some name) []
        s' := by
  have hdefining := isDefining_eq_true h.defining
  have hline := line_defining_eq_loopLine handle (k := j) htag.solid
    (htag.head?_ne rfl (by decide)) (htag.expand_sourceLine hu he) htag.declaresVerbatim hu he
    (.inl hunit) h.block h.verbatims hdefining (.inl (by rw [h.loops]; simp))
  rw [learn_of_unit hunit] at hline
  have hdepth : (depthOf (sourceLine u j tag e)).runFrom s = (.ok j, s) := by
    rw [depthOf_sourceLine htag.solid hu (.inl hunit), learn_of_unit hunit]
  have houtside := loopLine_outside handle htag hu he h.loops hdepth hj
  obtain ⟨s', hrun, hunit', hs'⟩ := (h.popLoop k).calls handle hr hu hunit items hitems
  exact ⟨s', hline.trans (houtside.trans (runFrom_bind_ok hrun)), hunit', hs'⟩

end Gathers

/-! ## The first line after the methods -/

/-- The session at the left edge, with no method under way. -/
def Session.grounded (s : Session) : Session := { s.withLevel 0 with defining := none }

/-- From both sessions an action ends alike, but what a fault leaves may differ. -/
def Agrees (x : Compile Unit) (s t : Session) : Prop :=
  x.runFrom s = x.runFrom t ∨ ∃ f, (x.runFrom s).1 = .error f ∧ (x.runFrom t).1 = .error f

theorem Ends.of_agrees {tags : TagTable} {u : Text} {inv : Store → Prop} {x : Compile Unit}
    {s t : Session} {r : Except Fault Page} (h : Ends tags u inv x t r) (hx : Agrees x s t)
    (hunit : s.KeepsUnit u t) : Ends tags u inv x s r := by
  rcases hx with hrun | ⟨f, hs, ht⟩
  · exact h.of_run hrun hunit fun _ h => h
  · cases r with
    | error g =>
      have hg : (x.runFrom t).1 = .error g := h
      rw [hg] at ht
      exact hs.trans ht.symm
    | ok p =>
      obtain ⟨s', hrun, _⟩ := h
      rw [hrun] at ht
      cases ht

theorem Agrees.bind {x : Compile Unit} {s t : Session} (h : Agrees x s t) (f : Unit → Compile Unit) :
    Agrees (x >>= f) s t := by
  rcases h with hrun | ⟨g, hs, ht⟩
  · exact .inl (by rw [runFrom_bind, runFrom_bind, hrun])
  · exact .inr ⟨g, runFrom_bind_fst_error hs, runFrom_bind_fst_error ht⟩

namespace Compile
variable {handle : Handler} {tag : Text} {s : Session}

section Fresh
variable (hdefining : s.defining = none) (hfresh : s.indentation.fresh)
  (hlevel : 0 ≤ s.indentation.level)
include hdefining hfresh hlevel

theorem enter_fresh (entry : Option Text) : (enter ((0 : Nat) : Int) (some entry)).runFrom s =
      (enter ((0 : Nat) : Int) (some entry)).runFrom (s.withLevel 0) := by
  have hrun : ∀ t : Session, t.defining = none → t.indentation.fresh → 0 ≤ t.indentation.level →
      (enter ((0 : Nat) : Int) (some entry)).runFrom t = (do
        push entry
        modify fun s : Session => { s with indentation := s.indentation.place 0 }
        : Compile Unit).runFrom t := by
    intro t hd hf hl
    have hisdef := isDefining_eq_false hd
    have hblanks : (blanks ((0 : Nat) : Int)).runFrom t = (.ok [], t) := rfl
    have hdepth : (depthOf ([] ++ ['|'])).runFrom t = (.ok 0, t) := rfl
    have hclosings : t.indentation.closings 0 = .ok 0 := by
      simp only [Indentation.closings, hf]
      rw [if_neg (by simp), if_neg (by simp only [Int.natCast_zero]; omega)]
    simp only [enter, runFrom_bind, runFrom_get, hisdef, hblanks, hdepth, hclosings,
      runFrom_liftM, times, runFrom_pure, Bool.false_eq_true, if_false]
  rw [hrun s hdefining hfresh hlevel, hrun (s.withLevel 0) hdefining hfresh (Int.le_refl 0)]
  rfl

theorem writeLine_fresh (space opening : Text) (closing element : Option Text) :
    (writeLine 0 space opening closing element).runFrom s =
      (writeLine 0 space opening closing element).runFrom (s.withLevel 0) := by
  rw [writeLine, runFrom_bind, runFrom_bind, enter_fresh hdefining hfresh hlevel]

theorem definitionLine_fresh (d : Definition) :
    Agrees (definitionLine handle 0 [] d) s (s.withLevel 0) := by
  cases hm : s.methods.get? d.name with
  | some m =>
    have hm' : (s.withLevel 0).methods.get? d.name = some m := hm
    refine .inl ?_
    simp only [definitionLine, runFrom_bind, runFrom_get, hm, hm']
    rw [enter_fresh hdefining hfresh hlevel]
  | none =>
    have hm' : (s.withLevel 0).methods.get? d.name = none := hm
    have htags : (s.withLevel 0).tags = s.tags := rfl
    rw [Agrees, definitionLine_element hm, definitionLine_element hm', htags]
    cases hcheck : checkElement s.tags d with
    | error f => exact .inr ⟨f, rfl, rfl⟩
    | ok _ => exact .inl (writeLine_fresh hdefining hfresh hlevel _ _ _ _)

end Fresh

theorem markupLine_fresh (handle : Handler) {i : Item Text} (h : ReadAs tag i) (hdefining : s.defining = none)
    (hfresh : s.indentation.fresh) (hlevel : 0 ≤ s.indentation.level) :
    Agrees (markupLine handle 0 [] tag) s (s.withLevel 0) := by
  have hnames : ∀ d, Names tag d → Agrees (markupLine handle 0 [] tag) s (s.withLevel 0) := by
    intro d hd
    rw [Agrees, markupLine_definition hd, markupLine_definition hd]
    exact definitionLine_fresh hdefining hfresh hlevel d
  match i, h with
  | .markup (.element _ _ _), h => exact hnames _ h
  | .markup (.text t), h =>
    rw [Agrees, markupLine_text h, markupLine_text h]
    exact .inl (writeLine_fresh hdefining hfresh hlevel _ _ _ _)
  | .call _ _ _, h => exact hnames _ h

end Compile

namespace Gathers
variable {tags : TagTable} {u e tag : Text} {R : Routines} {n : Nat} {d : Option Text} {s : Session}

theorem page_grounded {loops : List Loop} (h : Gathers tags u R n d loops s) : s.grounded.page = {} := by
  obtain ⟨k, hpage⟩ := h.page
  have hlevel : s.grounded.page = s.page.atLevel 0 := rfl
  rw [hlevel, hpage]
  rfl

theorem idle (h : Gathers tags u R n d [] s)
    (hunit : s.indentation.unit = some u ∨ s.indentation.unit = none) : s.grounded.Idle tags u := by
  refine ⟨h.table, h.block, h.verbatims, h.loops, rfl, hunit.imp id fun hnone => ⟨hnone, ?_⟩, ?_, ?_⟩
  · rw [h.page_grounded]
    exact Nat.zero_le 1
  · rw [h.page_grounded]
    exact ⟨Int.le_refl _, fun _ => rfl⟩
  · rw [h.page_grounded]
    exact ⟨by simp, by simp⟩

/-- To the first line at the left edge, the level does not matter. -/
theorem agrees_first (h : Gathers tags u R n d [] s)
    (hunit : s.indentation.unit = some u ∨ s.indentation.unit = none) {i : Item Text}
    (htag : ReadAs tag i) (hu : isUnit u) (he : LineEnd e) (handle : Handler) :
    Agrees (line handle (sourceLine u 0 tag e)) s s.grounded := by
  have hreads : s.Reads u 0 := hunit.imp id fun hnone => ⟨hnone, Nat.zero_le _⟩
  obtain ⟨k, hpage⟩ := h.page
  have hfresh : s.indentation.fresh := congrArg fresh hpage
  have hlevel : s.indentation.level = k := congrArg level hpage
  have hs := line_at_edge handle htag.calm hu he hreads h.block h.verbatims h.loops
  have hg := line_at_edge (s := s.grounded) handle htag.calm hu he hreads h.block h.verbatims h.loops
  have hfirst := markupLine_fresh handle (s := s.endDefinition) htag rfl
    hfresh (by rw [hlevel]; exact Int.natCast_nonneg k)
  rw [Agrees, hs, hg]
  exact hfirst

end Gathers
end OutlineMarkup
