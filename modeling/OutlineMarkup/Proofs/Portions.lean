import OutlineMarkup.Proofs.Defining
import OutlineMarkup.Proofs.Rewinding

/-!
# Portions of documents

Lines of markup and definitions may follow one another in any order, as long as a line that comes
after a definition stands at the left edge. Where a document stands after some portions is told by
the portions alone: how deep the next line may be, how many levels are in use, and which lines are
open.
-/

namespace OutlineMarkup
open List Compile

inductive Portion where
  | line (depth : Nat) (m : Markup Text)
  | definition (p : Procedure)

structure Standing where
  /-- How deep the next line may be. -/
  limit : Nat := 0
  /-- How many levels a line at the left edge comes after. -/
  room : Nat := 0
  /-- The lines that are open, innermost first. -/
  opened : Outline := []

namespace Portion

def lines (u : Text) : Portion → List Text
  | line depth m => [u.times depth ++ m.written]
  | definition p => p.lines u

def depth : Portion → Nat
  | line depth _ => depth
  | definition _ => 0

/-- A definition takes the level back and leaves the lines open that are. -/
def after (st : Standing) : Portion → Standing
  | line depth m => ⟨depth + 1, depth + 1, (depth, m) :: st.opened.drop (st.room - depth)⟩
  | definition _ => ⟨0, min st.room 1, st.opened⟩

def fit : Standing → List Portion → Bool
  | _, [] => true
  | st, x :: xs => decide (x.depth ≤ st.limit) && fit (x.after st) xs

/-- A line that the grammar allows, or a definition of a method that is not the name of an element. -/
def IsSound (tags : TagTable) (u : Text) : Portion → Prop
  | line _ m => m.isPlain = true ∧ isUnreserved m.written = true ∧ m.isAllowed tags = true
  | definition p => p.IsDefinable ∧ tags.has p.name = false ∧ ∀ l ∈ p.lines u, isUnreserved l = true

instance (tags : TagTable) (u : Text) (x : Portion) : Decidable (x.IsSound tags u) :=
  match x with
  | line _ _ => inferInstanceAs (Decidable (_ ∧ _ ∧ _))
  | definition _ => inferInstanceAs (Decidable (_ ∧ _ ∧ _))

def defined? : Portion → Option Text
  | line _ _ => none
  | definition p => some p.name

def name? : Portion → Option Text
  | line _ m => m.name?
  | definition _ => none

def place (tags : TagTable) (u : Text) (p : Page) : Portion → Except Fault Page
  | line depth m => p.put tags u depth m
  | definition _ => .ok p.rewind

variable {tags : TagTable} {u : Text} {x : Portion} {xs ys : List Portion} {st : Standing}

theorem fit_append (st : Standing) (xs ys : List Portion) :
    fit st (xs ++ ys) = (fit st xs && fit (xs.foldl after st) ys) := by
  induction xs generalizing st with
  | nil => rfl
  | cons x xs ih => rw [cons_append, fit, fit, ih, foldl_cons, Bool.and_assoc]

theorem line_signs (hu : isUnit u) (hx : x.IsSound tags u) : ∀ l ∈ x.lines u, Unbroken l := by
  cases x with
  | line k m =>
    intro l hl
    obtain rfl := mem_singleton.mp hl
    exact (Markup.spells_written hx.1 hx.2.1).calm.line_signs hu
  | definition p => exact Procedure.line_signs hx.1 hu (Procedure.calm_body hx.1 hx.2.2)

theorem lines_signs (hu : isUnit u) (hx : ∀ x ∈ xs, x.IsSound tags u) :
    ∀ l ∈ xs.flatMap (lines u), Unbroken l := by
  intro l hl
  obtain ⟨x, hmem, hl⟩ := mem_flatMap.mp hl
  exact line_signs hu (hx x hmem) l hl

end Portion

/-! ## On the page -/

namespace Page
variable {tags : TagTable} {u : Text} {st : Standing} {p q : Page}

/-- The page of a document that stands so. -/
structure Stands (u : Text) (st : Standing) (q : Page) : Prop extends q.Regular where
  room : q.room = st.room
  elements : q.elements = st.opened.entries u
  covered : st.room ≤ st.opened.length
  blank : st.room = 0 → st.opened = []
  limit : st.limit = 0 ∨ st.limit = st.room ∧ ∀ x ∈ st.opened.head?, x.1 + 1 = st.room
  last : ∀ x ∈ st.opened.head?, q.lastElement = x.2.name? ∧
    ∃ before, q.written = (u.times x.1 ++ x.2.opening).reverse ++ before

theorem stands_start (u : Text) : ({} : Page).Stands u {} :=
  ⟨⟨Int.le_refl _, fun _ => rfl⟩, rfl, rfl, Nat.le_refl _, fun _ => rfl, .inl rfl, fun x hx => by cases hx⟩

theorem Stands.limit_le (hq : q.Stands u st) : st.limit ≤ st.room := by
  rcases hq.limit with h | ⟨h, _⟩
  · rw [h]
    exact Nat.zero_le _
  · exact h.le

theorem Stands.put (hq : q.Stands u st) {k : Nat} {m : Markup Text} (hk : k ≤ st.room)
    (hm : m.check tags = .ok ()) :
    ∃ r, q.put tags u k m = .ok r ∧ r.Stands u ((Portion.line k m).after st) := by
  have hroom := hq.room
  have hlength : q.room - k ≤ q.elements.length := by
    have hcovered := hq.covered
    rw [hq.elements, Outline.entries, length_map]
    omega
  refine ⟨((((pop tags u)^[q.room - k] q).push k (m.ending (u.times k))).write u k m), ?_, ?_⟩
  · rw [Page.put, hm, Page.enter_eq hq.toRegular (by omega), if_pos hlength]
    rfl
  · refine ⟨regular_push.write, by rw [room_write, room_push]; rfl, ?_, ?_, ?_, ?_, ?_⟩
    · change m.ending (u.times k) :: ((pop tags u)^[q.room - k] q).elements = _
      rw [pops_elements, hq.elements, hroom]
      simp [Portion.after, Outline.entries]
    · have hcovered := hq.covered
      simp only [Portion.after, length_cons, length_drop]
      omega
    · intro h
      cases h
    · refine .inr ⟨rfl, fun x hx => ?_⟩
      cases hx
      rfl
    · intro x hx
      cases hx
      exact ⟨rfl, _, rfl⟩

theorem Stands.rewind (hq : q.Stands u st) (p : Procedure) :
    q.rewind.Stands u ((Portion.definition p).after st) := by
  have hroom := hq.room
  refine ⟨⟨Int.le_refl _, fun _ => rfl⟩, ?_, hq.elements, ?_, ?_, .inl rfl, hq.last⟩
  · have hnonneg := hq.nonneg
    have hrewind : q.rewind.room = if q.fresh then 0 else 1 := rfl
    rw [Page.room] at hroom
    rw [hrewind, Portion.after]
    cases hf : q.fresh with
    | true =>
      rw [hf] at hroom
      simp [← hroom]
    | false =>
      simp only [hf, Bool.false_eq_true, if_false] at hroom ⊢
      omega
  · exact (Nat.min_le_left _ _).trans hq.covered
  · intro h
    simp only [Portion.after] at h
    exact hq.blank (by omega)

end Page

/-! ## In a session -/

namespace Portion
variable {tags : TagTable} {u : Text} {x : Portion} {xs ys : List Portion} {st : Standing} {s : Session}
  {names ls : List Text} {files : Files} {place : Place} {imported : List Text}

/-- A session that has handled portions, of which the last one may be a definition that has not ended
yet. The methods are among those with the names. -/
structure Reached (tags : TagTable) (u : Text) (names : List Text) (st : Standing) (s : Session) : Prop where
  idle : s.endDefinition.Idle tags u
  stands : s.page.Stands u st
  edge : s.defining = none ∨ st.limit = 0
  methods : ∀ name, name ∉ names → s.methods.get? name = none
  dropMarks : s.dropMarks = false

variable (hs : Reached tags u names st s)
include hs

theorem Reached.line (handle : Handler) (hu : isUnit u)
    {k : Nat} {m : Markup Text} {e : Text} (hx : (line k m).IsSound tags u) (hk : k ≤ st.limit)
    (hfree : ∀ name ∈ m.name?, name ∉ names) (he : LineEnd e) :
    ∃ t, (Compile.line handle (u.times k ++ m.written ++ e)).runFrom s = (.ok (), t) ∧
      Reached tags u names ((line k m).after st) t ∧ s.page.put tags u k m = .ok t.page ∧
      (t.files, t.place, t.imported) = (s.files, s.place, s.imported) := by
  obtain ⟨hshaped, hun, hallowed⟩ := hx
  have hspells := Markup.spells_written hshaped hun
  have hends : (Compile.line handle (sourceLine u k m.written e)).runFrom s =
      (Compile.line handle (sourceLine u k m.written e)).runFrom s.endDefinition := by
    rcases hs.edge with hd | hlimit
    · rw [Session.endDefinition_eq hd]
    · obtain rfl : k = 0 := by omega
      exact Compile.line_ends_definition handle hs.idle hspells.calm hu he
  have hcheck : m.check tags = .ok () := (Markup.check_eq_ok_iff hshaped).mpr hallowed
  have hroom : k ≤ st.room := hk.trans hs.stands.limit_le
  obtain ⟨r, hput, hr⟩ := hs.stands.put hroom hcheck
  have hreads : s.endDefinition.Reads u k := hs.idle.reads (by
    change k ≤ s.page.room
    rw [hs.stands.room]
    exact hroom)
  have hrun := Compile.line_markup handle hspells hshaped hu he hs.idle hreads
    fun name hname => hs.methods name (hfree name hname)
  have hput' : s.endDefinition.page.put tags u k m = .ok r := hput
  rw [hput', ← hends, sourceLine, ← append_assoc] at hrun
  obtain ⟨t, ht⟩ : ∃ t, t = ((s.endDefinition.learn u k).withPage r) := ⟨_, rfl⟩
  have hknown : r.Known s.tags := by
    have hknown : s.page.Known s.tags := hs.idle.known
    have htable : s.tags = tags := hs.idle.table
    rw [htable] at hknown ⊢
    exact hknown.put (indents_of_isUnit hu) hshaped hput
  have hidle := hs.idle.learn_withPage (k := k) hr.toRegular hknown hr.room
  rw [← ht] at hidle
  have hnone : t.endDefinition = t := by rw [ht]; rfl
  refine ⟨t, by rw [ht]; exact hrun, ⟨by rw [hnone]; exact hidle, by rw [ht]; exact hr, .inl ?_, ?_, ?_⟩,
    by rw [ht]; exact hput, by rw [ht]; rfl⟩
  · rw [ht]
    rfl
  · rw [ht]
    exact hs.methods
  · rw [ht]
    exact hs.dropMarks

theorem Reached.definition (handle : Handler)
    (hu : isUnit u) {p : Procedure} (hp : (definition p).IsSound tags u) (hname : p.name ∈ names)
    (hls : Forall₂ IsEnded (p.lines u) ls) : ∃ t, (ls.forM (Compile.line handle)).runFrom s = (.ok (), t) ∧
      Reached tags u names ((definition p).after st) t ∧ s.page.rewind = t.page ∧
      (t.files, t.place, t.imported) = (s.files, s.place, s.imported) := by
  obtain ⟨hdefinable, hfree, hun⟩ := hp
  have htable : s.tags = tags := hs.idle.table
  obtain ⟨_, methods, hrun, _, _, hother⟩ := Compile.lines_defined handle (s := s) hu hdefinable
    (by rwa [htable]) (hun _ mem_cons_self) (Procedure.calm_body hdefinable hun)
    (hs.idle.unit.imp id And.left) hs.idle.block hs.idle.verbatims hs.idle.loops hs.dropMarks hls
  obtain ⟨t, ht⟩ : ∃ t : Session, t = { (s.define p).learn u p.body.length with methods := methods } :=
    ⟨_, rfl⟩
  rw [← ht] at hrun
  have hlength : p.body.length ≠ 0 := by simpa using hdefinable.nonempty
  have hpage : s.page.rewind = t.page := by rw [ht]; rfl
  refine ⟨t, hrun, ⟨?_, hpage ▸ hs.stands.rewind p, .inr rfl, fun name hn => ?_, ?_⟩, hpage,
    by rw [ht]; rfl⟩
  · rw [ht]
    refine ⟨htable, hs.idle.block, hs.idle.verbatims, hs.idle.loops, rfl, .inl ?_,
      ⟨Int.le_refl _, fun _ => rfl⟩, ⟨hs.idle.known.last, hs.idle.known.entries⟩⟩
    simp [Session.learn, hlength]
  · rw [ht]
    change methods.get? name = none
    rw [hother name fun h => hn (h ▸ hname)]
    exact hs.methods name hn
  · rw [ht]
    exact hs.dropMarks

theorem Reached.portions (handle : Handler) (hu : isUnit u) (hfit : fit st xs) (hx : ∀ x ∈ xs, x.IsSound tags u)
    (hdefined : ∀ x ∈ xs, ∀ name ∈ x.defined?, name ∈ names)
    (hfree : ∀ x ∈ xs, ∀ name ∈ x.name?, name ∉ names) (hls : Forall₂ IsEnded (xs.flatMap (lines u)) ls) :
    ∃ t, (ls.forM (Compile.line handle)).runFrom s = (.ok (), t) ∧
      Reached tags u names (xs.foldl after st) t ∧ xs.foldlM (Portion.place tags u) s.page = .ok t.page ∧
      (t.files, t.place, t.imported) = (s.files, s.place, s.imported) := by
  induction xs generalizing st s ls with
  | nil =>
    cases hls
    exact ⟨s, rfl, hs, rfl, rfl⟩
  | cons x xs ih =>
    rw [fit, Bool.and_eq_true, decide_eq_true_eq] at hfit
    rw [flatMap_cons] at hls
    obtain ⟨as, bs, rfl, has, hbs⟩ := forall₂_append_left hls
    have hsound := hx x mem_cons_self
    obtain ⟨t, hrun, ht, hplace, hsame⟩ : ∃ t, (as.forM (Compile.line handle)).runFrom s = (.ok (), t) ∧
        Reached tags u names (x.after st) t ∧ Portion.place tags u s.page x = .ok t.page ∧
        (t.files, t.place, t.imported) = (s.files, s.place, s.imported) := by
      cases x with
      | line k m =>
        rcases has with _ | ⟨⟨e, he, rfl⟩, hnil⟩
        cases hnil
        obtain ⟨t, hrun, ht⟩ := hs.line handle hu hsound hfit.1 (hfree _ mem_cons_self) he
        refine ⟨t, ?_, ht⟩
        rw [Action.runFrom_forM_cons, hrun]
        rfl
      | definition p =>
        obtain ⟨t, hrun, ht, hpage, hsame⟩ := hs.definition handle hu hsound
          (hdefined _ mem_cons_self p.name rfl) has
        exact ⟨t, hrun, ht, by rw [← hpage]; rfl, hsame⟩
    obtain ⟨v, hrun', hv, hplace', hsame'⟩ := ih ht hfit.2
      (forall_mem_cons.mp hx).2 (forall_mem_cons.mp hdefined).2
      (forall_mem_cons.mp hfree).2 hbs
    refine ⟨v, ?_, hv, ?_, hsame'.trans hsame⟩
    · rw [Action.runFrom_forM_append, hrun]
      exact hrun'
    · rw [foldlM_cons, hplace]
      exact hplace'

end Portion
end OutlineMarkup
