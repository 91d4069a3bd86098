import OutlineMarkup.Proofs.OpenLoops
import OutlineMarkup.Proofs.Rendering

/-!
# Loops mean unrolling

A document with loops compiles to what the document compiles to in which every loop is replaced by
copies of its body, one for each item. The loop is entered once when it starts and once for each
item, always at its own depth and right before a line of a copy, so the page is as if the copies
stood alone.
-/

namespace OutlineMarkup
open List Compile
variable {α : Type} {xs : List Text}

open Trace (dense Climbs climbs_append)

/-- A line of markup, or a loop with its body. The depths of a body start from one. -/
inductive Passage where
  | line (depth : Nat) (m : Markup Text)
  | loop (depth : Nat) (iterator : Text) (items : List Text) (body : List (Nat × Markup Template))
  deriving Repr, DecidableEq

/-- What a loop has to be: bare words, and a body one level deeper that refers to the variable of the
loop alone. -/
@[mk_iff] structure IsUnrollable (v : Text) (items : List Text) (body : List (Nat × Markup Template)) : Prop where
  name : v.isName = true ∧ isUnreserved v = true
  items : items ≠ [] ∧ ∀ w ∈ items, isBareWord w = true ∧ isUnreserved w = true
  start : ∃ x ∈ body.head?, x.1 = 1
  depths : ∀ x ∈ body, 1 ≤ x.1
  fillable : ∀ x ∈ body, (Item.markup x.2).isSound [v] = true
  source : ∀ x ∈ body, isUnreserved (x.2.map Template.source).written = true

instance (v : Text) (items : List Text) (body : List (Nat × Markup Template)) :
    Decidable (IsUnrollable v items body) := decidable_of_iff' _ (isUnrollable_iff v items body)

theorem IsUnrollable.isLoop {v : Text} {items : List Text} {body : List (Nat × Markup Template)}
    (h : IsUnrollable v items body) : IsLoop v items :=
  ⟨h.name.1, h.items.1, fun w hw => (h.items.2 w hw).1,
    isUnreserved_loopText h.name.2 fun w hw => (h.items.2 w hw).2⟩

namespace Passage

def lines (u : Text) : Passage → List Text
  | line k m => [u.times k ++ m.written]
  | loop k v items body =>
    (u.times k ++ loopText v items) ::
      body.map fun (j, m) => u.times (k + j) ++ (m.map Template.source).written

def copy (k : Nat) (v : Text) (body : List (Nat × Markup Template)) (w : Text) : Outline :=
  body.map fun (j, m) => (k + j - 1, m.map (Template.fill fun n => if n = v then w else []))

def unrolled : Passage → Outline
  | line k m => [(k, m)]
  | loop k v items body => items.flatMap (copy k v body)

def iterator? : Passage → Option Text
  | line _ _ => none
  | loop _ v _ _ => some v

def IsWellFormed : Passage → Prop
  | line _ m => m.isPlain = true ∧ isUnreserved m.written = true
  | loop _ v items body => IsUnrollable v items body

instance : DecidablePred IsWellFormed
  | line _ m => inferInstanceAs (Decidable (m.isPlain = true ∧ isUnreserved m.written = true))
  | loop _ v items body => inferInstanceAs (Decidable (IsUnrollable v items body))

/-- After a loop there is a line, and it is not nested in the loop. -/
def IsFollowedBy : Passage → Passage → Prop
  | line _ _, _ => True
  | loop k _ _ _, line j _ => j ≤ k
  | loop _ _ _ _, loop _ _ _ _ => False

instance : DecidableRel IsFollowedBy
  | line _ _, _ => inferInstanceAs (Decidable True)
  | loop k _ _ _, line j _ => inferInstanceAs (Decidable (j ≤ k))
  | loop _ _ _ _, loop _ _ _ _ => inferInstanceAs (Decidable False)

def trace : Passage → Trace
  | line k m => [(k, some m)]
  | loop k v items body => (k, none) :: items.flatMap fun w => (k, none) :: (copy k v body w).trace

end Passage

/-- A document with loops: the variables are distinct, and no loop comes right after another. -/
@[mk_iff] structure AreUnrollable (ps : List Passage) : Prop where
  wellFormed : ∀ p ∈ ps, p.IsWellFormed
  distinct : (ps.filterMap Passage.iterator?).Nodup
  apart : ps.IsChain Passage.IsFollowedBy

instance (ps : List Passage) : Decidable (AreUnrollable ps) := decidable_of_iff' _ (areUnrollable_iff ps)

/-! ## Traces -/

def itemsOf {α : Type} (ms : List (Nat × Markup α)) : List (Nat × Item α) :=
  ms.map fun (k, m) => (k, .markup m)

theorem Outline.covered_trace (o : Outline) : o.trace.Covered := by
  induction o with
  | nil => trivial
  | cons x o ih => exact ih

theorem Outline.dense_trace (o : Outline) : dense o.trace = o.trace := by
  rw [dense, trace, filter_eq_self]
  intro x hx
  obtain ⟨y, _, rfl⟩ := mem_map.mp hx
  rfl

theorem Trace.covered_flatMap {as : List α} {f : α → Trace} (h : ∀ a ∈ as, (f a).Covered) :
    Trace.Covered (as.flatMap f) := by
  induction as with
  | nil => trivial
  | cons a as ih =>
    rw [flatMap_cons]
    exact Trace.covered_append (h a mem_cons_self) (ih fun b hb => h b (.tail _ hb))

theorem Trace.dense_flatMap (as : List α) (f : α → Trace) :
    dense (as.flatMap f) = as.flatMap fun a => (f a).dense := filter_flatMap

theorem Outline.trace_flatMap (as : List α) (f : α → Outline) :
    Outline.trace (as.flatMap f) = as.flatMap fun a => (f a).trace := map_flatMap

namespace Passage
variable {v : Text} {items : List Text} {body : List (Nat × Markup Template)} {k : Nat} {p : Passage}

theorem head?_trace_copy (h : ∃ x ∈ body.head?, x.1 = 1) (w : Text) :
    ∃ x ∈ (copy k v body w).trace.head?, x.1 = k := by
  obtain ⟨⟨j, m⟩, hx, rfl⟩ := h
  obtain ⟨rest, rfl⟩ := head?_eq_some_iff.mp hx
  exact ⟨_, rfl, rfl⟩

theorem covered_trace (h : p.IsWellFormed) : p.trace.Covered := by
  cases p with
  | line k m => trivial
  | loop k v items body =>
    obtain ⟨w, items, rfl⟩ := exists_cons_of_ne_nil h.items.1
    refine ⟨⟨(k, none), rfl, rfl⟩, Trace.covered_flatMap fun w _ => ?_⟩
    exact ⟨head?_trace_copy h.start w, Outline.covered_trace _⟩

theorem dense_trace (p : Passage) : p.trace.dense = p.unrolled.trace := by
  cases p with
  | line k m => rfl
  | loop k v items body =>
    change dense (items.flatMap _) = _
    rw [Trace.dense_flatMap, unrolled, Outline.trace_flatMap]
    exact flatMap_congr fun w _ => Outline.dense_trace _

theorem isPlain_unrolled (h : p.IsWellFormed) : ∀ x ∈ p.unrolled, x.2.isPlain := by
  intro x hx
  cases p with
  | line k m =>
    obtain rfl := mem_singleton.mp hx
    exact h.1
  | loop k v items body =>
    obtain ⟨w, hw, hx⟩ := mem_flatMap.mp hx
    obtain ⟨y, hy, rfl⟩ := mem_map.mp hx
    refine Item.isPlain_fill (h.fillable y hy) fun n hn => ?_
    rw [if_pos (mem_singleton.mp hn)]
    exact (h.items.2 w hw).1

end Passage

/-! ## Loops as routines -/

theorem Routine.binding_singleton (v w : Text) (own : Bool) (body : Body) :
    (⟨[v], own, body⟩ : Routine).binding [w] = fun n => if n = v then w else [] := by
  funext n
  rw [binding]
  by_cases h : n = v
  · simp [h]
  · simp [h, beq_false_of_ne h]

namespace Passage
variable {v : Text} {items : List Text} {body : List (Nat × Markup Template)} {k : Nat} {p : Passage}

def opened (i k : Nat) (v : Text) (items : List Text) (body : List (Nat × Markup Template)) : OpenLoop :=
  ⟨i, k, v, items, itemsOf body⟩

variable {i : Nat} {R : Routines} {started : List Text} {tags : TagTable} {u : Text}

theorem inlined_opened (j : Nat) (w : Text) :
    (opened i k v items body).routine.inlined j [w] = itemsOf (copy j v body w) := by
  rw [Routine.inlined, opened, OpenLoop.routine, Routine.binding_singleton, itemsOf, itemsOf, copy,
    map_map, map_map]
  rfl

theorem comes_call (hR : R (opened i k v items body).name = some (opened i k v items body).routine)
    (N j : Nat) (w : Text) : R.Comes (N + 1) (j, (opened i k v items body).call w)
      ((j, (opened i k v items body).call w) :: itemsOf (copy j v body w)) := by
  refine ⟨_, (itemsOf (copy j v body w)).map fun x => [x], hR, ?_, ?_⟩
  · change Forall₂ _ ((opened i k v items body).routine.inlined j [w]) _
    rw [inlined_opened, forall₂_map_right_iff]
    refine forall₂_same.mpr fun x hx => ?_
    obtain ⟨y, _, rfl⟩ := mem_map.mp hx
    cases N <;> rfl
  · rw [← flatMap_def, flatMap_singleton']
    rfl

theorem trace_itemsOf (o : Outline) : Program.trace (itemsOf o) = o.trace := by
  rw [Program.trace, itemsOf, map_map]
  rfl

theorem calls_does (tags : TagTable) (hR : R.AreLoops started) (hu : isUnit u)
    (hopen : R (opened i k v items body).name = some (opened i k v items body).routine)
    (hwords : ∀ w ∈ items, isBareWord w ∧ isUnreserved w)
    (hun : ∀ x ∈ items.flatMap (copy k v body), isUnreserved x.2.written) (N : Nat) :
    Forall₂ (fun w t => Does tags u (R.Stored u started)
        (lineTo (N + 2) (sourceLine u k ((opened i k v items body).call w).written [])) t)
      items (items.map fun w => (k, none) :: (copy k v body w).trace) := by
  rw [forall₂_map_right_iff]
  refine forall₂_same.mpr fun w hw => ?_
  obtain ⟨hword, hreserved⟩ := hwords w hw
  have hshaped := (opened i k v items body).isPlain_call hword
  have hwritten := (opened i k v items body).isUnreserved_call hreserved
  have hdoes : Does tags u (R.Stored u started) (lineTo (N + 2) _) _ := hR.does hu (comes_call hopen 0 k w)
    ⟨hshaped, _, hopen, rfl⟩ (fun y hy => ?_) (by omega) (Item.readAs_written hshaped hwritten)
    (.inl rfl)
  · have htrace : Program.trace ((k, (opened i k v items body).call w) :: itemsOf (copy k v body w)) =
        (k, none) :: (copy k v body w).trace := congrArg (cons _) (trace_itemsOf _)
    rwa [htrace] at hdoes
  · rcases mem_cons.mp hy with rfl | hy
    · exact hwritten
    · obtain ⟨x, hx, rfl⟩ := mem_map.mp hy
      exact hun x (mem_flatMap.mpr ⟨w, hw, hx⟩)

theorem climbs_body {w : Text} {n : Nat} (hdepths : ∀ x ∈ body, 1 ≤ x.1)
    (h : (copy k v body w).trace.Climbs n) :
    Climbs (n + 1) ((itemsOf body).map fun x => (k + x.1, none)) := by
  induction body generalizing n with
  | nil => trivial
  | cons x body ih =>
    have hx := hdepths x mem_cons_self
    have hn : k + x.1 - 1 ≤ n := h.1
    refine ⟨by change k + x.1 ≤ n + 1; omega, ?_⟩
    have hrest := ih (forall_mem_cons.mp hdepths).2 h.2
    have hsum : k + x.1 - 1 + 1 + 1 = k + x.1 + 1 := by omega
    rwa [hsum] at hrest

end Passage

/-! ## Running a document -/

/-- The lines are handled and then everything is closed, which gives an output. -/
def Finishes (handle : Text → Compile Unit) (xs : List Text) (s : Session) (output : Text) : Prop :=
  ∃ s' t, (xs.forM handle).runFrom s = (.ok (), s') ∧
    (Compile.closeAll handle).runFrom s' = (.ok (), t) ∧ t.output = output

theorem Finishes.append {handle : Handler} {ys : List Text} {s s' : Session}
    {output : Text} (h : Finishes handle ys s' output)
    (hxs : (xs.forM handle).runFrom s = (.ok (), s')) : Finishes handle (xs ++ ys) s output := by
  obtain ⟨s'', t, hys, hclose, hout⟩ := h
  refine ⟨s'', t, ?_, hclose, hout⟩
  rw [Action.runFrom_forM_append, hxs]
  exact hys

theorem Finishes.cons {handle : Handler} {x : Text} {s s' : Session}
    {output : Text} (h : Finishes handle xs s' output) (hx : (handle x).runFrom s = (.ok (), s')) :
    Finishes handle (x :: xs) s output := by
  have hone : ([x].forM handle).runFrom s = (.ok (), s') := by
    rw [Action.runFrom_forM_cons, hx]
    rfl
  exact h.append hone

namespace Collecting
variable {tags : TagTable} {u : Text} {R : Routines} {started : List Text} {s : Session}

theorem loop (h : Collecting tags u R started [] s) (handle : Handler) (hu : isUnit u)
    {k : Nat} {v : Text} {items : List Text} {body : List (Nat × Markup Template)}
    (hloop : IsUnrollable v items body) (hv : v ∉ started)
    (hxs : Forall₂ IsEnded ((Passage.loop k v items body).lines u) xs) (hk : k ≤ s.page.room)
    (hc : Climbs (k + 1) ((itemsOf body).map fun x => (k + x.1, none))) {p : Page}
    (hp : s.page.enter tags u k none = .ok p) :
    ∃ s' R', (xs.forM (line handle)).runFrom s = (.ok (), s') ∧ s'.page.atLevel k = p ∧
      Collecting tags u R' (started ++ [v]) [Passage.opened started.length k v items body] s' := by
  rcases hxs with _ | ⟨⟨e, he, rfl⟩, hxs⟩
  obtain ⟨s₁, hrun₁, rfl, hs₁⟩ := h.start handle hloop.isLoop (fun w hw => (hloop.items.2 w hw).2) hv hu he
    hk hp
  have hroom : s₁.page.room = k + 1 := (Page.step_ok (x := (k, none)) hp).2
  have hlines : body.map (fun x => u.times (k + x.1) ++ (x.2.map Template.source).written) =
      (itemsOf body).map fun x => u.times (k + x.1) ++ (x.2.map Template.source).written := by
    rw [itemsOf, map_map]
    rfl
  have hsuits : ∀ x ∈ itemsOf body, Routines.Suits
      (R.set (loopName started.length) ⟨[v], false, []⟩) started.length v x := by
    intro x hx
    obtain ⟨y, hy, rfl⟩ := mem_map.mp hx
    exact ⟨hloop.depths y hy, hloop.fillable y hy, hloop.source y hy, fun _ _ _ heq => by cases heq⟩
  obtain ⟨s₂, R₂, hrun₂, hpage₂, hs₂⟩ := hs₁.records handle hu hsuits (hlines ▸ hxs) (hroom ▸ hc)
  have hlevel : s₁.page.atLevel k = s₁.page := by
    obtain ⟨n, _, hn⟩ := Page.enter_ok hp
    rw [hn]
    rfl
  refine ⟨s₂, R₂, ?_, hpage₂.trans hlevel, hs₂⟩
  rw [Action.runFrom_forM_cons, append_assoc]
  rw [sourceLine] at hrun₁
  rw [hrun₁]
  exact hrun₂

end Collecting

namespace Passage
variable {tags : TagTable} {u : Text} {R : Routines} {started : List Text} {s : Session} {ps : List Passage}

theorem markup_does (tags : TagTable) (hR : R.AreLoops started) (hu : isUnit u) {m : Markup Text}
    (hm : m.isPlain ∧ isUnreserved m.written) (k : Nat) {e : Text} (he : LineEnd e) (N : Nat) :
    Does tags u (R.Stored u started) (lineTo (N + 1) (sourceLine u k m.written e)) [(k, some m)] := by
  have hcomes : R.Comes 0 (k, .markup m) [(k, .markup m)] := rfl
  exact hR.does hu hcomes ⟨hm.1, hR.admits_markup hm.1⟩ (by simpa [Item.written] using hm.2)
    (Nat.zero_le N) (Item.readAs_written (i := .markup m) hm.1 hm.2) he

section Line
variable {p : Page} {m : Markup Text} {e : Text}

theorem line_runs (hu : isUnit u) (h : Collecting tags u R started [] s)
    (hm : m.isPlain ∧ isUnreserved m.written) (he : LineEnd e) {k : Nat} (hk : k ≤ s.page.room)
    (hp : s.page.follow tags u [(k, some m)] = .ok p) (N : Nat) :
    ∃ s', (lineTo (N + 1) (sourceLine u k m.written e)).runFrom s = (.ok (), s') ∧ s'.page = p ∧
      Collecting tags u R started [] s' := by
  obtain ⟨s', hrun, hpage, hi, hs, _⟩ := (markup_does tags h.areLoops hu hm k he N).of_ok h.idle_of_nil h.stored
    ⟨hk, trivial⟩ hp
  exact ⟨s', hrun, hpage, Collecting.nil_iff.mpr ⟨hi, h.areLoops, hs⟩⟩

/-- A line behind an open loop runs the loop first. -/
theorem line_runs_loop (hu : isUnit u) {j : Nat} (h : Collecting tags u R started [opened i k v items body] s)
    (hcopies : ∀ x ∈ items.flatMap (copy k v body), isUnreserved x.2.written)
    (hm : m.isPlain ∧ isUnreserved m.written) (he : LineEnd e)
    (hnext : IsFollowedBy (loop k v items body) (line j m))
    (hc : Climbs (k + 1) (items.flatMap (fun w => (k, none) :: (copy k v body w).trace) ++ [(j, some m)]))
    (hp : (s.page.atLevel k).follow tags u
      (items.flatMap (fun w => (k, none) :: (copy k v body w).trace) ++ [(j, some m)]) = .ok p) (N : Nat) :
    ∃ s', (lineTo (N + 3) (sourceLine u j m.written e)).runFrom s = (.ok (), s') ∧ s'.page = p ∧
      Collecting tags u R started [] s' := by
  have hdoes := markup_does tags h.areLoops hu hm j he (N + 1)
  have hcalls := calls_does tags h.areLoops hu (h.opened _ mem_cons_self) (h.items _ mem_cons_self) hcopies N
  have hcalm := Item.ReadAs.calm (Item.readAs_written (i := .markup m) hm.1 hm.2)
  rw [flatMap_def] at hc hp
  obtain ⟨s', hrun, hpage, hi, hs, _⟩ := (h.line_ends hu hcalls hcalm he hnext hdoes hc).of_ok hp
  exact ⟨s', hrun, hpage, Collecting.nil_iff.mpr ⟨hi, h.areLoops, hs⟩⟩

end Line

theorem climbs_itemsOf (h : IsUnrollable v items body) {t : Trace}
    (hc : Climbs (k + 1) (items.flatMap (fun w => (k, none) :: (copy k v body w).trace) ++ t)) :
    Climbs (k + 1) ((itemsOf body).map fun x => (k + x.1, none)) := by
  obtain ⟨w, items, rfl⟩ := exists_cons_of_ne_nil h.items.1
  obtain ⟨x, hx, hk⟩ := head?_trace_copy (k := k) (v := v) h.start w
  have hcopy : (copy k v body w).trace.Climbs (k + 1) := (climbs_append.mp (climbs_append.mp hc.2).1).1
  refine climbs_body h.depths (hcopy.of_head fun y hy => ?_)
  rw [Option.mem_unique hx hy] at hk
  exact hk.le

/-- What is left of a document finishes, whether a loop is open or not. -/
theorem finishes (hu : isUnit u) (N : Nat) (hps : AreUnrollable ps)
    (hfresh : ∀ v ∈ ps.filterMap iterator?, v ∉ started)
    (hun : ∀ x ∈ ps.flatMap unrolled, isUnreserved x.2.written)
    (hxs : Forall₂ IsEnded (ps.flatMap (·.lines u)) xs) {p : Page} :
    (Collecting tags u R started [] s → Climbs s.page.room (ps.flatMap trace) →
      s.page.follow tags u (ps.flatMap trace) = .ok p → Finishes (lineTo (N + 3)) xs s (p.output tags u)) ∧
    ∀ i k v items body, Collecting tags u R started [opened i k v items body] s →
      (∀ q ∈ ps.head?, IsFollowedBy (loop k v items body) q) →
      (∀ x ∈ items.flatMap (copy k v body), isUnreserved x.2.written) →
      Climbs (k + 1) (items.flatMap (fun w => (k, none) :: (copy k v body w).trace) ++
        ps.flatMap trace) → (s.page.atLevel k).follow tags u
        (items.flatMap (fun w => (k, none) :: (copy k v body w).trace) ++ ps.flatMap trace) = .ok p →
      Finishes (lineTo (N + 3)) xs s (p.output tags u) := by
  induction ps generalizing R started s xs with
  | nil =>
    cases hxs
    refine ⟨fun h _ hp => ?_, fun i k v items body h _ hun hc hp => ?_⟩
    · cases hp
      exact ⟨s, _, rfl, closeAll_run _ h.idle_of_nil (indents_of_isUnit hu), rfl⟩
    · have hopen := h.opened _ mem_cons_self
      have hcalls := calls_does tags h.areLoops hu hopen (h.items _ mem_cons_self) hun (N + 1)
      rw [flatMap_nil, append_nil, flatMap_def] at hc hp
      obtain ⟨t, hclose, hout⟩ := h.closeAll_ends hu hcalls hc hp
      exact ⟨s, t, rfl, hclose, hout⟩
  | cons q ps ih =>
    rw [flatMap_cons] at hxs
    obtain ⟨ys, zs, rfl, hys, hzs⟩ := forall₂_append_left hxs
    have hrest : AreUnrollable ps := ⟨fun r hr => hps.wellFormed r (.tail _ hr),
      hps.distinct.sublist (Sublist.filterMap _ (sublist_cons_self _ _)), hps.apart.tail⟩
    have hun' : ∀ x ∈ ps.flatMap unrolled, isUnreserved x.2.written := fun x hx =>
      hun x (by rw [flatMap_cons]; exact mem_append_right _ hx)
    have hq := hps.wellFormed q mem_cons_self
    cases q with
    | line j m =>
      have hfresh' : ∀ v ∈ ps.filterMap iterator?, v ∉ started := hfresh
      rcases hys with _ | ⟨⟨e, he, rfl⟩, hys⟩
      cases hys
      rw [append_assoc]
      refine ⟨fun h hc hp => ?_, fun i k v items body h hnext hcopies hc hp => ?_⟩
      · rw [flatMap_cons, climbs_append] at hc
        obtain ⟨p₁, hp₁, hp⟩ := Page.follow_append_eq_ok hp
        obtain ⟨s₁, hrun, rfl, hs₁⟩ := line_runs hu h hq he hc.1.1 hp₁ (N + 2)
        refine Finishes.cons ?_ hrun
        exact (ih hrest hfresh' hun' hzs).1 hs₁ (by rw [Page.follow_room hp₁]; exact hc.2) hp
      · rw [flatMap_cons, ← append_assoc, climbs_append] at hc
        rw [flatMap_cons, ← append_assoc] at hp
        obtain ⟨p₁, hp₁, hp⟩ := Page.follow_append_eq_ok hp
        obtain ⟨s₁, hrun, rfl, hs₁⟩ := line_runs_loop hu h hcopies hq he (hnext _ rfl) hc.1 hp₁ N
        refine Finishes.cons ?_ hrun
        refine (ih hrest hfresh' hun' hzs).1 hs₁ ?_ hp
        rw [Page.follow_room hp₁, Page.room_atLevel (h.entered (cons_ne_nil _ _))]
        exact hc.2
    | loop k v items body =>
      have hiterators : (loop k v items body :: ps).filterMap iterator? = v :: ps.filterMap iterator? := rfl
      have hfresh' : ∀ w ∈ ps.filterMap iterator?, w ∉ started ++ [v] := by
        intro w hw hmem
        have hdistinct := hps.distinct
        rw [hiterators, nodup_cons] at hdistinct
        rcases mem_append.mp hmem with hmem | hmem
        · exact hfresh w (.tail _ hw) hmem
        · exact hdistinct.1 (mem_singleton.mp hmem ▸ hw)
      refine ⟨fun h hc hp => ?_, fun i k' v' items' body' h hnext hcopies hc hp => ?_⟩
      · obtain ⟨p₁, hp₁, hp⟩ := Page.follow_cons_eq_ok hp
        obtain ⟨s₁, R₁, hrun, hpage, hs₁⟩ := h.loop (lineTo (N + 2)) hu hq
          (hfresh v mem_cons_self) hys hc.1 (climbs_itemsOf hq hc.2) hp₁
        refine Finishes.append ?_ hrun
        refine (ih hrest hfresh' hun' hzs).2 _ _ _ _ _ hs₁ (fun q hq => hps.apart.rel_head? hq) ?_ hc.2
          (hpage.symm ▸ hp)
        exact fun x hx => hun x (mem_append_left _ hx)
      · exact (hnext _ rfl).elim

end Passage

/-! ## Documents -/

namespace AreUnrollable
variable {ps : List Passage} {u : Text}

theorem line_signs (h : AreUnrollable ps) (hu : isUnit u) : ∀ l ∈ ps.flatMap (·.lines u), Unbroken l := by
  intro l hl
  obtain ⟨p, hp, hl⟩ := mem_flatMap.mp hl
  have hwf := h.wellFormed p hp
  cases p with
  | line k m =>
    obtain rfl := mem_singleton.mp hl
    exact (Item.ReadAs.calm (Item.readAs_written (i := .markup m) hwf.1 hwf.2)).line_signs hu
  | loop k v items body =>
    rcases mem_cons.mp hl with rfl | hl
    · exact hwf.isLoop.header.line_signs hu
    · obtain ⟨x, hx, rfl⟩ := mem_map.mp hl
      exact (Item.calm_source (i := .markup x.2) (hwf.fillable x hx) (by simpa using hwf.name.1)
        (hwf.source x hx)).line_signs hu

theorem covered_trace (h : AreUnrollable ps) : Trace.Covered (ps.flatMap Passage.trace) :=
  Trace.covered_flatMap fun p hp => Passage.covered_trace (h.wellFormed p hp)

theorem dense_trace (ps : List Passage) :
    dense (ps.flatMap Passage.trace) = Outline.trace (ps.flatMap Passage.unrolled) := by
  rw [Trace.dense_flatMap, Outline.trace_flatMap]
  exact flatMap_congr fun p _ => Passage.dense_trace p

theorem isPlain_unrolled (h : AreUnrollable ps)
    (hun : ∀ x ∈ ps.flatMap Passage.unrolled, isUnreserved x.2.written) :
    Outline.isPlain (ps.flatMap Passage.unrolled) := by
  rw [Outline.isPlain, all_eq_true]
  intro x hx
  obtain ⟨p, hp, hxp⟩ := mem_flatMap.mp hx
  rw [Bool.and_eq_true]
  exact ⟨Passage.isPlain_unrolled (h.wellFormed p hp) x hxp, hun x hx⟩

end AreUnrollable

namespace Document
variable {tags : TagTable} {files : Files} {path u : Text}

/-- Loops mean unrolling: unless a reserved word comes up in a copy, a document with loops compiles
like the document in which each loop is replaced by copies of its body. -/
theorem compile_eq_unrolled (tags : TagTable) (u : Text) (ps : List Passage)
    (terminated terminated' : Bool) (files files' : Files) (path path' : Text)
    (hread : HasFile files path (sourceText (ps.flatMap (·.lines u)) terminated))
    (hread' : HasFile files' path' (sourceText (Outline.lines u (ps.flatMap Passage.unrolled)) terminated'))
    (hu : isUnit u = true) (hps : AreUnrollable ps)
    (hw : WellIndented (Outline.depths (ps.flatMap Passage.unrolled)))
    (ha : Outline.isAllowed tags (ps.flatMap Passage.unrolled) = true)
    (hun : ∀ x ∈ ps.flatMap Passage.unrolled, isUnreserved x.2.written = true) :
    (compile tags files path).fault = none ∧ (compile tags files' path').fault = none ∧
      (compile tags files path).output = (compile tags files' path').output := by
  have hshaped := hps.isPlain_unrolled hun
  have hnofault := (compile_eq_printing tags hu hread' hshaped hw ha).1
  have hunrolled := compile_outline tags hu hread' hshaped hw
  have hcovered := hps.covered_trace
  have hclimbs : Trace.Climbs 0 (ps.flatMap Passage.trace) := by
    rw [Trace.climbs_dense hcovered, AreUnrollable.dense_trace]
    exact Outline.climbs_trace hw
  have hblank : ({} : Page).Balanced := ⟨⟨Int.le_refl _, fun _ => rfl⟩, rfl⟩
  cases hp : ({} : Page).follow tags u (Outline.trace (ps.flatMap Passage.unrolled)) with
  | error f =>
    rw [hp] at hunrolled
    obtain ⟨g, hg⟩ := hunrolled
    rw [hg] at hnofault
    cases hnofault
  | ok p =>
    rw [hp] at hunrolled
    rw [← AreUnrollable.dense_trace, ← hblank.follow_dense hclimbs hcovered] at hp
    obtain ⟨n, hn, hhandle⟩ := handle_eq tags hread
    obtain ⟨N, rfl⟩ : ∃ N, n = N + 2 := ⟨n - 2, by omega⟩
    obtain ⟨s, t, hrun, hclose, hout⟩ := (Passage.finishes hu N hps (by simp) hun
      (forall₂_ended (ps.flatMap (·.lines u)) terminated)).1 (collecting_start tags files path u) hclimbs hp
    rw [← source_lines (hps.line_signs hu), ← hhandle] at hrun
    rw [← hhandle] at hclose
    have hcompile := compile_of_ok hread hrun hclose
    exact ⟨hcompile.1, hnofault, by rw [hcompile.2, hunrolled.2, hout]⟩

def sampleLoops : List Passage :=
  [.line 0 (.element "ul" none true),
    .loop 1 "v" ["a", "b"]
      [(1, .element "li" (some [("id", [.char 'x', .char '-', .ref "v"])]) true),
        (2, .text [.ref "v"])],
    .line 1 (.element "br" none false),
    .loop 0 "w" ["c"] [(1, .element "p" none false)]]

theorem compile_eq_unrolled_sample :
    (compile sampleTags [("a", sourceText (sampleLoops.flatMap (·.lines "\t")) true)]
        "a").Writes (compile sampleTags [("b", sourceText (Outline.lines "\t"
          (sampleLoops.flatMap Passage.unrolled)) false)] "b").output := by
  have h := compile_eq_unrolled sampleTags "\t" sampleLoops true false
    [("a", sourceText (sampleLoops.flatMap (·.lines "\t")) true)]
    [("b", sourceText (Outline.lines "\t" (sampleLoops.flatMap Passage.unrolled)) false)]
    "a" "b" (by decide +kernel) (by decide +kernel) (by decide) (by decide +kernel)
    (by decide +kernel) (by decide +kernel) (by decide +kernel)
  exact ⟨h.1, h.2.2⟩

/-- A reserved word that comes up when the item is put in. -/
def splitEngine : List Passage :=
  [.line 0 (.element "a" none false),
    .loop 0 "v" ["Engine"]
      [(1, .element "p" (some [("x", "Template".toList.map .char ++ [.ref "v"])]) false),
        (2, .element "b" none false)]]

/-- It is not enough that the document itself has no reserved words. -/
theorem splitEngine_not_unrolled :
    AreUnrollable splitEngine ∧
      WellIndented (Outline.depths (splitEngine.flatMap Passage.unrolled)) ∧
      Outline.isAllowed sampleTags (splitEngine.flatMap Passage.unrolled) = true ∧
      (compile sampleTags [("a", sourceText (splitEngine.flatMap (·.lines "\t")) true)]
        "a").output = "<a />\n\t<b />\n" ∧
      (compile sampleTags [("b", sourceText (Outline.lines "\t"
        (splitEngine.flatMap Passage.unrolled)) true)] "b").output =
        "<a>\n\t<b />\n</a>\n" :=
  ⟨by decide +kernel, by decide +kernel, by decide +kernel, by decide +kernel, by decide +kernel⟩

end Document
end OutlineMarkup
