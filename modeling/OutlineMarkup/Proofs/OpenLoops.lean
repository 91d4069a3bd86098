import OutlineMarkup.Proofs.LoopLines
import OutlineMarkup.Proofs.Routines

/-!
# Open loops

While loops are open their lines are collected, each with the innermost loop that it is nested in.
When the last open loop ends, its body runs once for every item, and the page goes on from the level
of the loop.
-/

namespace OutlineMarkup
open List Compile Session

theorem IsHeader.line_signs {v u : Text} {items : List Text} {k : Nat} (h : IsHeader v items)
    (hu : isUnit u) : Unbroken (u.times k ++ loopText v items) :=
  indented_signs hu (solid v items).ne_nil (h.not_mem rfl (by decide)) (h.not_mem rfl (by decide))

def LoopBefore (a b : Text) : Prop :=
  ∃ i j, a = Compile.loopName i ∧ b = Compile.loopName j ∧ i < j

theorem LoopBefore.irrefl (a : Text) : ¬ LoopBefore a a := by
  rintro ⟨i, j, rfl, hij, hlt⟩
  exact absurd (loopName_injective hij) hlt.ne

theorem LoopBefore.trans {a b c : Text} (hab : LoopBefore a b) (hbc : LoopBefore b c) : LoopBefore a c := by
  obtain ⟨i, j, rfl, rfl, hij⟩ := hab
  obtain ⟨j', k, hj, rfl, hjk⟩ := hbc
  obtain rfl := loopName_injective hj
  exact ⟨i, k, rfl, rfl, hij.trans hjk⟩

/-! ## Routines of loops -/

namespace Routines
variable {R : Routines} {started : List Text} {i : Nat} {v name : Text} {r : Routine}
  {x : Nat × Item Template}

/-- A line that the body of the loop with the number `i` may have: it refers to the variable of the
loop, or calls loops that were started later. -/
structure Suits (R : Routines) (i : Nat) (v : Text) (x : Nat × Item Template) : Prop where
  depth : 1 ≤ x.1
  fillable : x.2.isSound [v] = true
  source : isUnreserved (x.2.map Template.source).written = true
  calls : ∀ name arguments colon, x.2 = .call name arguments colon →
    (arguments.getD []).length = 1 ∧
      ∃ j, i < j ∧ name = Compile.loopName j ∧ (R name).isSome = true

/-- The routines are those of loops with the given variables. -/
structure AreLoops (started : List Text) (R : Routines) : Prop where
  distinct : started.Nodup
  routine : ∀ {a r}, R a = some r → ∃ i v, a = Compile.loopName i ∧ started[i]? = some v ∧
    v.isName = true ∧ r.names = [v] ∧ r.own = false ∧ ∀ x ∈ r.body, R.Suits i v x

theorem AreLoops.eq_none (h : R.AreLoops started) (hname : name.isAlphanumeric) : R name = none := by
  cases hr : R name with
  | none => rfl
  | some r =>
    obtain ⟨i, v, rfl, _⟩ := h.routine hr
    rw [isAlphanumeric_loopName] at hname
    cases hname

theorem AreLoops.admits_markup (h : R.AreLoops started) {m : Markup Text} (hm : m.isPlain) :
    R.Admits (.markup m) := fun name hname => h.eq_none (Markup.isMadeOf_name hm name hname)

theorem AreLoops.admits (h : R.AreLoops started) (hx : R.Suits i v x) : R.Admits x.2 := by
  have hfill := hx.fillable
  cases hi : x.2 with
  | markup m =>
    rw [hi] at hfill
    exact fun name hname => h.eq_none (Markup.isMadeOf_name hfill name hname)
  | call name arguments colon =>
    obtain ⟨hlength, j, _, _, hsome⟩ := hx.calls name arguments colon hi
    obtain ⟨r, hr⟩ := Option.isSome_iff_exists.mp hsome
    obtain ⟨_, _, _, _, _, hnames, _⟩ := h.routine hr
    exact ⟨r, hr, by rw [hnames, hlength]; rfl⟩

theorem AreLoops.isSound (h : R.AreLoops started) : R.IsSound LoopBefore where
  sound hr := by
    obtain ⟨i, v, _, _, hv, hnames, _, hbody⟩ := h.routine hr
    refine ⟨hnames ▸ nodup_singleton v, fun n hn => ?_, fun x hx => (hbody x hx).depth,
      fun x hx => hnames ▸ (hbody x hx).fillable, fun x hx => (hbody x hx).source⟩
    rw [hnames, mem_singleton] at hn
    rw [hn]
    exact hv
  admits hr x hx := by
    obtain ⟨i, v, _, _, _, _, _, hbody⟩ := h.routine hr
    exact h.admits (hbody x hx)
  calls hr x hx b hb := by
    obtain ⟨i, v, rfl, _, _, _, _, hbody⟩ := h.routine hr
    cases hi : x.2 with
    | markup m =>
      rw [hi] at hb
      cases hb
    | call name arguments colon =>
      obtain ⟨_, j, hj, hname, _⟩ := (hbody x hx).calls name arguments colon hi
      rw [hi] at hb
      cases hb
      exact ⟨i, j, rfl, hname, hj⟩
  apart {a b r r' n} hab hr hr' _ _ hn hn' := by
    obtain ⟨i, v, rfl, hi, _, hnames, _⟩ := h.routine hr
    obtain ⟨j, w, rfl, hj, _, hnames', _⟩ := h.routine hr'
    rw [hnames, mem_singleton] at hn
    rw [hnames', mem_singleton] at hn'
    rw [← hn] at hi
    rw [← hn'] at hj
    obtain rfl := (getElem?_inj (List.getElem?_eq_some_iff.mp hi).1 h.distinct).mp (hi.trans hj.symm)
    exact LoopBefore.irrefl _ hab

theorem Suits.mono {R' : Routines} (h : R.Suits i v x)
    (hsome : ∀ {a}, (R a).isSome → (R' a).isSome) : R'.Suits i v x := by
  refine ⟨h.depth, h.fillable, h.source, fun name arguments colon hx => ?_⟩
  obtain ⟨hlength, j, hj, hname, hR⟩ := h.calls name arguments colon hx
  exact ⟨hlength, j, hj, hname, hsome hR⟩

theorem isSome_set {a : Text} (h : (R a).isSome) : (R.set name r a).isSome := by
  by_cases ha : a = name
  · rw [ha, set_self]
    rfl
  · rwa [set_ne ha]

theorem AreLoops.start (h : R.AreLoops started) (hv : v ∉ started) (hname : v.isName) :
    (R.set (loopName started.length) ⟨[v], false, []⟩).AreLoops (started ++ [v]) := by
  refine ⟨?_, fun {a r} hr => ?_⟩
  · rw [nodup_append]
    refine ⟨h.distinct, nodup_singleton v, fun a ha b hb hab => hv ?_⟩
    rw [mem_singleton.mp hb] at hab
    exact hab ▸ ha
  · by_cases ha : a = loopName started.length
    · rw [ha, set_self] at hr
      cases hr
      exact ⟨started.length, v, ha, by simp, hname, rfl, rfl, by simp⟩
    · rw [set_ne ha] at hr
      obtain ⟨i, w, rfl, hi, hw, hnames, hown, hbody⟩ := h.routine hr
      refine ⟨i, w, rfl, ?_, hw, hnames, hown, fun x hx => (hbody x hx).mono isSome_set⟩
      rw [getElem?_append_left]
      · exact hi
      · exact (List.getElem?_eq_some_iff.mp hi).1

theorem AreLoops.record (h : R.AreLoops started) (hr : R (loopName i) = some r)
    (hv : started[i]? = some v) (hx : R.Suits i v x) :
    (R.set (loopName i) { r with body := r.body ++ [x] }).AreLoops started := by
  refine ⟨h.distinct, fun {a r'} hr' => ?_⟩
  by_cases ha : a = loopName i
  · rw [ha, set_self] at hr'
    cases hr'
    obtain ⟨j, w, hj, hw, hname, hnames, hown, hbody⟩ := h.routine hr
    obtain rfl := loopName_injective hj
    obtain rfl : v = w := Option.some.inj (hv.symm.trans hw)
    refine ⟨i, v, ha, hv, hname, hnames, hown, fun y hy => ?_⟩
    rcases mem_append.mp hy with hy | hy
    · exact (hbody y hy).mono isSome_set
    · rw [mem_singleton.mp hy]
      exact hx.mono isSome_set
  · rw [set_ne ha] at hr'
    obtain ⟨j, w, rfl, hj, hw, hnames, hown, hbody⟩ := h.routine hr'
    exact ⟨j, w, rfl, hj, hw, hnames, hown, fun y hy => (hbody y hy).mono isSome_set⟩

end Routines

/-! ## Collecting lines -/

namespace Page

def atLevel (k : Nat) (p : Page) : Page := { p with level := k }

theorem room_atLevel {p : Page} (hp : p.fresh = false) (k : Nat) : (p.atLevel k).room = k + 1 := by
  rw [room, atLevel, hp]
  rfl

theorem atLevel_atLevel (p : Page) (j k : Nat) : (p.atLevel j).atLevel k = p.atLevel k := rfl

end Page

/-- A loop whose lines are being collected; the depths of its body start from one. -/
structure OpenLoop where
  index : Nat
  depth : Nat
  iterator : Text
  items : List Text
  body : List (Nat × Item Template)

namespace OpenLoop

def name (L : OpenLoop) : Text := Compile.loopName L.index

def routine (L : OpenLoop) : Routine := ⟨[L.iterator], false, L.body⟩

def loop (L : OpenLoop) : Loop := ⟨L.name, L.depth, L.items⟩

def call (L : OpenLoop) (w : Text) : Item Text := .call L.name (some [w]) false

theorem isPlain_call (L : OpenLoop) {w : Text} (hw : isBareWord w) :
    (L.call w).isPlain := isPlain_loopCall L.index hw

theorem isUnreserved_call (L : OpenLoop) {w : Text} (hw : isUnreserved w) :
    isUnreserved (L.call w).written := isUnreserved_loopCall L.index hw

def record (L : OpenLoop) (x : Nat × Item Template) : OpenLoop :=
  { L with body := L.body ++ [(x.1 - L.depth, x.2)] }

end OpenLoop

/-- What a session knows are the routines of the loops that were started, and variables of theirs. -/
structure Routines.Stored (u : Text) (R : Routines) (started : List Text) (st : Store) : Prop where
  holds : R.Holds u st.methods
  count : st.loopCount = started.length
  known : ∀ v, st.globals.get? v ≠ none → ∃ w ∈ started, v = '$' :: w

/-- Loops are open, innermost first, and nothing else is being collected. -/
structure Collecting (tags : TagTable) (u : Text) (R : Routines) (started : List Text)
    (stack : List OpenLoop) (s : Session) : Prop where
  idle : ({ s with loops := [] } : Session).Idle tags u
  loops : s.loops = stack.map OpenLoop.loop
  areLoops : R.AreLoops started
  stored : R.Stored u started s.store
  opened : ∀ L ∈ stack, R L.name = some L.routine
  items : ∀ L ∈ stack, ∀ w ∈ L.items, isBareWord w = true ∧ isUnreserved w = true
  order : (stack.map (·.index)).Pairwise (· > ·)
  unit : s.indentation.unit = some u ∨ ∀ L ∈ stack, L.depth = 0
  entered : stack ≠ [] → s.page.fresh = false

namespace Collecting
variable {tags : TagTable} {u v e : Text} {R : Routines} {started : List Text} {stack : List OpenLoop}
  {s : Session} {L : OpenLoop} {k : Nat}

theorem idle_of_nil (h : Collecting tags u R started [] s) : s.Idle tags u := by
  have hloops : s.loops = [] := h.loops
  have hidle := h.idle
  rwa [← hloops] at hidle

section Started
variable (h : Collecting tags u R started stack s)
include h

theorem started_getElem? (hL : L ∈ stack) : started[L.index]? = some L.iterator ∧ L.iterator.isName := by
  obtain ⟨i, v, hname, hi, hv, hnames, _⟩ := h.areLoops.routine (h.opened L hL)
  obtain rfl := loopName_injective hname
  obtain rfl : L.iterator = v := singleton_injective hnames
  exact ⟨hi, hv⟩

theorem index_lt (hL : L ∈ stack) :
    L.index < started.length := (List.getElem?_eq_some_iff.mp (h.started_getElem? hL).1).1

theorem fresh (hv : v ∉ started) : s.globals.get? ('$' :: v) = none := by
  by_contra hne
  obtain ⟨w, hw, heq⟩ := h.stored.known _ hne
  cases heq
  exact hv hw

theorem start (handle : Handler) {items : List Text} (hl : IsLoop v items)
    (hitems : ∀ w ∈ items, isUnreserved w) (hv : v ∉ started) (hu : isUnit u) (he : LineEnd e)
    (hk : k ≤ s.page.room) {p : Page} (hp : s.page.enter tags u k none = .ok p) :
    ∃ s', (line handle (sourceLine u k (loopText v items) e)).runFrom s = (.ok (), s') ∧ s'.page = p ∧
      Collecting tags u (R.set (loopName started.length) ⟨[v], false, []⟩) (started ++ [v])
        (⟨started.length, k, v, items, []⟩ :: stack) s' := by
  have hline := line_loop handle hl.header hu he h.idle hk (h.fresh hv)
  rw [hp] at hline
  have hstep : s.page.step tags u (k, none) = .ok p := hp
  have hknown : p.Known s.tags := by
    have henter : s.page.enter s.tags u k none = .ok p := by
      have htags : s.tags = tags := h.idle.table
      rw [htags]
      exact hp
    exact h.idle.known.enter (by simp) henter
  have hidle := h.idle.learn_withPage (k := k) (Page.step_ok hstep).1 hknown (Page.step_ok hstep).2
  have hcount : s.loopCount = started.length := h.stored.count
  have hname : loopName s.loopCount = loopName started.length := by rw [hcount]
  have hne : ∀ M ∈ stack, M.name ≠ loopName started.length := fun M hM heq =>
    (h.index_lt hM).ne (loopName_injective heq)
  refine ⟨_, hline, rfl, ?_⟩
  constructor
  case idle =>
    exact ⟨hidle.table, hidle.block, hidle.verbatims, rfl, hidle.defining, hidle.unit, hidle.regular,
      hidle.known⟩
  case loops =>
    change Loop.mk (loopName s.loopCount) k items :: s.loops = _
    rw [h.loops, hname]
    rfl
  case areLoops => exact h.areLoops.start hv hl.name
  case stored =>
    refine ⟨?_, ?_, fun a ha => ?_⟩
    · change Routines.Holds u _ (s.methods.set (loopName s.loopCount) _)
      rw [hname]
      refine h.stored.holds.insert (Table.get?_set_self _ _ _) ⟨rfl, rfl, .nil⟩
        (fun a ha => Table.get?_set_ne _ ha _) fun hown => ?_
      cases hown
    · change s.loopCount + 1 = _
      rw [hcount, length_append]
      rfl
    · obtain ⟨w, hw, rfl⟩ := h.stored.known a ha
      exact ⟨w, mem_append_left _ hw, rfl⟩
  case opened =>
    intro M hM
    rcases mem_cons.mp hM with rfl | hM
    · exact Routines.set_self _ _
    · rw [Routines.set_ne (hne M hM)]
      exact h.opened M hM
  case items =>
    intro M hM w hw
    rcases mem_cons.mp hM with rfl | hM
    · exact ⟨hl.words w hw, hitems w hw⟩
    · exact h.items M hM w hw
  case order =>
    refine pairwise_cons.mpr ⟨fun i hi => ?_, h.order⟩
    obtain ⟨M, hM, rfl⟩ := mem_map.mp hi
    exact h.index_lt hM
  case unit =>
    rcases learn_unit (s := s) (u := u) (k := k) with hunit | rfl
    · exact .inl hunit
    · refine h.unit.imp id fun hzero M hM => ?_
      rcases mem_cons.mp hM with rfl | hM
      · rfl
      · exact hzero M hM
  case entered =>
    intro _
    obtain ⟨n, _, rfl⟩ := Page.enter_ok hp
    rfl

end Started

theorem record (h : Collecting tags u R started (L :: stack) s) (handle : Handler)
    {i : Item Template} (hi : R.Suits L.index L.iterator (k - L.depth, i))
    (hu : isUnit u) (he : LineEnd e) (hk : L.depth < k) (hreads : s.Reads u k) :
    ∃ s', (line handle (sourceLine u k (i.map Template.source).written e)).runFrom s = (.ok (), s') ∧
      s'.page = s.page.atLevel k ∧ s.KeepsUnit u s' ∧
      Collecting tags u (R.set L.name (L.record (k, i)).routine) started (L.record (k, i) :: stack) s' := by
  have hL := h.opened L mem_cons_self
  obtain ⟨hindex, hname⟩ := h.started_getElem? mem_cons_self
  obtain ⟨m, hm, hstands⟩ := h.stored.holds.found hL
  have hcalm := Item.calm_source hi.fillable (by simpa using hname) hi.source
  have hloops : s.loops = ⟨L.name, L.depth, L.items⟩ :: stack.map OpenLoop.loop := h.loops
  have hline := line_in_loop handle hcalm hu he hloops h.idle hreads hm hk
  have hfresh : s.page.fresh = false := h.entered (cons_ne_nil _ _)
  have hunit : (s.learn u k).indentation.unit = some u := learn_unit.resolve_right (by omega)
  have hne : ∀ M ∈ stack, M.name ≠ L.name := by
    intro M hM heq
    have hlt := (pairwise_cons.mp h.order).1 M.index (mem_map.mpr ⟨M, hM, rfl⟩)
    exact hlt.ne (loopName_injective heq)
  refine ⟨_, hline, rfl, fun _ => hunit, ?_⟩
  constructor
  case idle =>
    have hknown := h.idle.known
    refine ⟨h.idle.table, h.idle.block, h.idle.verbatims, rfl, h.idle.defining, .inl hunit, ?_, ?_⟩
    · refine ⟨Int.natCast_nonneg k, fun hf => ?_⟩
      have hf' : s.page.fresh := hf
      rw [hfresh] at hf'
      cases hf'
    · exact ⟨hknown.last, hknown.entries⟩
  case loops => exact h.loops
  case areLoops => exact h.areLoops.record hL hindex hi
  case stored =>
    refine ⟨?_, h.stored.count, h.stored.known⟩
    refine h.stored.holds.insert (Table.get?_set_self _ _ _)
      ⟨hstands.parameters, hstands.own, ?_⟩ (fun a ha => Table.get?_set_ne _ ha _) fun hown => ?_
    · exact rel_append hstands.lines (.cons ⟨rfl, e, he, rfl⟩ .nil)
    · have hown' : m.ownVariables := hown
      rw [hstands.own] at hown'
      cases hown'
  case opened =>
    intro M hM
    rcases mem_cons.mp hM with rfl | hM
    · exact Routines.set_self _ _
    · rw [Routines.set_ne (hne M hM)]
      exact h.opened M (.tail _ hM)
  case items =>
    intro M hM
    rcases mem_cons.mp hM with rfl | hM
    · exact h.items L mem_cons_self
    · exact h.items M (.tail _ hM)
  case order => exact h.order
  case unit => exact .inl hunit
  case entered => exact fun _ => hfresh

end Collecting

/-! ## The end of a loop -/

theorem Routines.AreLoops.does {tags : TagTable} {u : Text} {R : Routines} {started : List Text}
    (hR : R.AreLoops started) (hu : isUnit u) {n N : Nat} {x : Nat × Item Text}
    {lines : Items} (h : R.Comes n x lines)
    (hx : x.2.isPlain ∧ R.Admits x.2) (hun : ∀ y ∈ lines, isUnreserved y.2.written)
    (hN : n ≤ N) {tag e : Text} (htag : Item.ReadAs tag x.2) (he : LineEnd e) :
    Does tags u (R.Stored u started) (lineTo (N + 1) (sourceLine u x.1 tag e)) (Program.trace lines) := by
  intro s hi hs hc
  have hknown : ∀ {name r}, R name = some r → r.own = false → ∀ n ∈ r.names,
      ∃ w ∈ started, '$' :: n = '$' :: w := by
    intro name r hr _ n hn
    obtain ⟨i, v, _, hget, _, hnames, _⟩ := hR.routine hr
    rw [hnames, mem_singleton] at hn
    exact ⟨v, mem_of_getElem? hget, by rw [hn]⟩
  have hdoes := h.does hR.isSound hs.holds LoopBefore.irrefl LoopBefore.trans hu hknown hx hun
    (fun y hy => absurd hy not_mem_nil) hN htag he s hi (.refl hs.known) hc
  refine hdoes.of_run rfl id fun st hst => ⟨?_, hst.loopCount.trans hs.count, hst.known⟩
  rw [hst.methods]
  exact hs.holds

namespace Compile
variable {handle : Handler} {tags : TagTable} {u : Text} {inv : Store → Prop} {s : Session}

theorem loopCalls_run {name : Text} {level : Nat} (items : List Text) {ws : List Text} {ts : List Trace}
    (h : Forall₂ (fun w t =>
      Does tags u inv (handle (sourceLine u level (Item.call name (some [w]) false).written [])) t) ws ts)
    (hi : s.Idle tags u) (hs : inv s.store) (hc : Trace.Climbs s.page.room ts.flatten)
    (hunit : s.indentation.unit = some u ∨ level = 0) :
    Ends tags u inv (ws.forM (loopCall handle ⟨name, level, items⟩)) s (s.page.follow tags u ts.flatten) := by
  induction h generalizing s with
  | nil => exact ⟨s, rfl, rfl, hi, hs, id⟩
  | @cons w t ws ts hdoes _ ih =>
    rw [flatten_cons, Trace.climbs_append] at hc
    rw [flatten_cons]
    refine Ends.bind (x := loopCall handle ⟨name, level, items⟩ w) ?_ fun s' hp hi' hs' hkeeps => ?_
    · exact (hdoes s hi hs (.inr hc.1)).of_run (loopCall_run hi.defining hunit) id fun _ h => h
    · exact ih hi' hs' (by rw [Page.follow_room hp]; exact hc.2) (hunit.imp hkeeps id)

end Compile

namespace Collecting
variable {tags : TagTable} {u : Text} {R : Routines} {started : List Text} {s : Session} {L : OpenLoop}
  {handle : Handler} {ts : List Trace} {stack : List OpenLoop} {k : Nat}

theorem nil_iff : Collecting tags u R started [] s ↔
    s.Idle tags u ∧ R.AreLoops started ∧ R.Stored u started s.store := by
  constructor
  · exact fun h => ⟨h.idle_of_nil, h.areLoops, h.stored⟩
  · rintro ⟨hi, hR, hs⟩
    have hloops := hi.loops
    exact ⟨⟨hi.table, hi.block, hi.verbatims, rfl, hi.defining, hi.unit, hi.regular, hi.known⟩, hloops,
      hR, hs, by simp, by simp, .nil, by simp, by simp⟩

section Innermost
variable (h : Collecting tags u R started (L :: stack) s)
include h

theorem records (handle : Handler) (hu : isUnit u) {body : Body}
    (hbody : ∀ x ∈ body, R.Suits L.index L.iterator x) {xs : List Text} (hxs : Forall₂ IsEnded
      (body.map fun x => u.times (L.depth + x.1) ++ (x.2.map Template.source).written) xs)
    (hc : Trace.Climbs s.page.room (body.map fun x => (L.depth + x.1, none))) :
    ∃ s' R', (xs.forM (line handle)).runFrom s = (.ok (), s') ∧
      s'.page.atLevel L.depth = s.page.atLevel L.depth ∧
      Collecting tags u R' started ({ L with body := L.body ++ body } :: stack) s' := by
  induction body generalizing R L s xs with
  | nil =>
    cases hxs
    exact ⟨s, R, rfl, rfl, by rwa [append_nil]⟩
  | cons x body ih =>
    obtain ⟨k, i⟩ := x
    rcases hxs with _ | ⟨⟨e, he, rfl⟩, hxs⟩
    have hx := hbody _ mem_cons_self
    have hdepth : L.depth + k - L.depth = k := by omega
    obtain ⟨s₁, hrun₁, hpage₁, _, hs₁⟩ := h.record handle (e := e) (k := L.depth + k) (i := i)
      (by rw [hdepth]; exact hx) hu he (by have := hx.depth; omega)
      (h.idle.reads hc.1)
    have hroom : s₁.page.room = L.depth + k + 1 := by
      rw [hpage₁, Page.room_atLevel (h.entered (cons_ne_nil _ _))]
    obtain ⟨s₂, R₂, hrun₂, hpage₂, hs₂⟩ := ih hs₁
      (fun y hy => (hbody y (.tail _ hy)).mono Routines.isSome_set) hxs
      (hroom ▸ hc.2)
    refine ⟨s₂, R₂, ?_, hpage₂.trans (by rw [hpage₁]; rfl), ?_⟩
    · rw [Action.runFrom_forM_cons, append_assoc]
      rw [sourceLine] at hrun₁
      rw [hrun₁]
      exact hrun₂
    · have hrecord : (L.record (L.depth + k, i)).body ++ body = L.body ++ (k, i) :: body := by
        rw [OpenLoop.record, hdepth, append_assoc]
        rfl
      rw [hrecord] at hs₂
      exact hs₂

theorem popped (k : Nat) :
    Collecting tags u R started stack ((s.learn u k).popLoop L.depth (stack.map OpenLoop.loop)) := by
  have hfresh : s.page.fresh = false := h.entered (cons_ne_nil _ _)
  have hunit : (s.learn u k).indentation.unit = some u ∨
      s.indentation.unit = none ∧ ∀ M ∈ L :: stack, M.depth = 0 := by
    rcases h.idle.unit with hunit | hunit
    · exact .inl (keepsUnit_learn hunit)
    · rcases h.unit with hunit' | hzero
      · exact .inl (keepsUnit_learn hunit')
      · exact .inr ⟨hunit.1, hzero⟩
  constructor
  case idle =>
    have hknown := h.idle.known
    refine ⟨h.idle.table, h.idle.block, h.idle.verbatims, rfl, h.idle.defining, ?_, ?_, ?_⟩
    · rcases hunit with hunit | ⟨hunit, hzero⟩
      · exact .inl hunit
      · rcases learn_unit (s := s) (u := u) (k := k) with hlearn | rfl
        · exact .inl hlearn
        · refine .inr ⟨hunit, ?_⟩
          change (s.page.atLevel L.depth).room ≤ 1
          rw [Page.room_atLevel hfresh, hzero L mem_cons_self]
    · refine ⟨Int.natCast_nonneg _, fun hf => ?_⟩
      have hf' : s.page.fresh := hf
      rw [hfresh] at hf'
      cases hf'
    · exact ⟨hknown.last, hknown.entries⟩
  case loops => rfl
  case areLoops => exact h.areLoops
  case stored => exact h.stored
  case opened => exact (forall_mem_cons.mp h.opened).2
  case items => exact (forall_mem_cons.mp h.items).2
  case order => exact (pairwise_cons.mp h.order).2
  case unit => exact hunit.imp id fun hzero M hM => hzero.2 M (.tail _ hM)
  case entered => exact fun _ => hfresh

theorem reads (hk : k ≤ L.depth) : s.Reads u k := by
  rcases h.unit with hunit | hzero
  · exact .inl hunit
  · rw [hzero L mem_cons_self] at hk
    exact h.idle.reads (by omega)

theorem unit_popped (k : Nat) : (s.learn u k).indentation.unit = some u ∨ L.depth = 0 :=
  h.unit.imp keepsUnit_learn fun hzero => hzero L mem_cons_self

theorem room_popped (k : Nat) :
    ((s.learn u k).popLoop L.depth (stack.map OpenLoop.loop)).page.room = L.depth + 1 :=
  Page.room_atLevel (h.entered (cons_ne_nil _ _)) L.depth

end Innermost

section Single
variable (h : Collecting tags u R started [L] s) (hu : isUnit u)
  (hcalls : Forall₂ (fun w t => Does tags u (R.Stored u started) (handle (sourceLine u L.depth (L.call w).written [])) t) L.items ts)
include h hu hcalls

theorem line_ends {tag e : Text} (htag : Calm tag) (he : LineEnd e) (hk : k ≤ L.depth) {t : Trace}
    (hline : Does tags u (R.Stored u started) (handle (sourceLine u k tag e)) t)
    (hc : Trace.Climbs (L.depth + 1) (ts.flatten ++ t)) :
    Ends tags u (R.Stored u started) (line handle (sourceLine u k tag e)) s
      ((s.page.atLevel L.depth).follow tags u (ts.flatten ++ t)) := by
  have hloops : s.loops = [⟨L.name, L.depth, L.items⟩] := h.loops
  have hrun := line_ends_loop handle htag hu he hloops h.idle (h.reads hk) hk
  have hidle := (h.popped k).idle_of_nil
  rw [Trace.climbs_append] at hc
  have hcalled := loopCalls_run L.items hcalls hidle h.stored (h.room_popped k ▸ hc.1)
    (h.unit_popped k)
  refine Ends.of_run (hcalled.bind fun s' hp hi hs _ => hline s' hi hs (.inr ?_)) hrun
    keepsUnit_learn fun _ h => h
  rw [Page.follow_room hp, h.room_popped]
  exact hc.2

theorem closeAll_ends (hc : Trace.Climbs (L.depth + 1) ts.flatten) {p : Page}
    (hp : (s.page.atLevel L.depth).follow tags u ts.flatten = .ok p) :
    ∃ t, (closeAll handle).runFrom s = (.ok (), t) ∧ t.output = p.output tags u := by
  have hloops : s.loops = L.loop :: [] := h.loops
  have hidle := (h.popped 0).idle_of_nil
  have hcalled := loopCalls_run L.items hcalls hidle h.stored (h.room_popped 0 ▸ hc)
    (h.unit_popped 0)
  obtain ⟨t, hrun, rfl, hi, _⟩ := hcalled.of_ok hp
  have hunroll := unrollAll_once hloops ((unrollLoop_run hloops).trans hrun) hi.loops
  exact ⟨_, closeAll_unrolled h.idle.block h.idle.defining hunroll hi (indents_of_isUnit hu), rfl⟩

end Single

end Collecting

theorem Document.collecting_start (tags : TagTable) (files : Files) (path u : Text) :
    Collecting tags u (fun _ => none) [] [] (Document.start tags files path) :=
  Collecting.nil_iff.mpr ⟨Document.idle_start u, ⟨.nil, fun h => (by cases h)⟩,
    ⟨⟨fun h => (by cases h), fun _ => rfl, fun h => (by cases h)⟩, rfl, fun _ h => absurd rfl h⟩⟩

end OutlineMarkup
