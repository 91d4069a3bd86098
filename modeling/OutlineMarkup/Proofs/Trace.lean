import OutlineMarkup.Proofs.Page

/-!
# Traces

What a run does to its page is a trace: the depths that it enters in turn, each with the markup that
it places there or, for the call of a method or the start of a loop, with nothing. A page on which
every level holds one entry stays like that, and there an empty step leaves no mark if another step
at the same depth follows it.
-/

namespace OutlineMarkup
open Page

abbrev Trace := List (Nat × Option (Markup Text))

namespace Trace

/-- Steps that start with room for `n` levels and never go up by more than one. -/
def Climbs : Nat → Trace → Prop
  | _, [] => True
  | n, (depth, _) :: t => depth ≤ n ∧ Climbs (depth + 1) t

def roomAfter : Nat → Trace → Nat
  | n, [] => n
  | _, (depth, _) :: t => roomAfter (depth + 1) t

/-- Every empty step is followed by a step at its own depth. -/
def Covered : Trace → Prop
  | [] => True
  | (depth, none) :: t => (∃ x ∈ t.head?, x.1 = depth) ∧ Covered t
  | (_, some _) :: t => Covered t

def dense (t : Trace) : Trace := t.filter (·.2.isSome)

variable {n m : Nat} {s t : Trace}

theorem climbs_append : Climbs n (s ++ t) ↔ Climbs n s ∧ Climbs (roomAfter n s) t := by
  induction s generalizing n with
  | nil => simp [Climbs, roomAfter]
  | cons x s ih => simp [Climbs, roomAfter, ih, and_assoc]

theorem Climbs.of_head (h : Climbs n t) (hm : ∀ x ∈ t.head?, x.1 ≤ m) : Climbs m t := by
  cases t with
  | nil => trivial
  | cons x t => exact ⟨hm x rfl, h.2⟩

theorem Climbs.mono (h : Climbs m t) (hmn : m ≤ n) : Climbs n t := by
  cases t with
  | nil => trivial
  | cons x t => exact ⟨h.1.trans hmn, h.2⟩

theorem roomAfter_append : roomAfter n (s ++ t) = roomAfter (roomAfter n s) t := by
  induction s generalizing n with
  | nil => rfl
  | cons x s ih => exact ih

theorem climbs_dense (ht : Covered t) : Climbs n t ↔ Climbs n t.dense := by
  induction t generalizing n with
  | nil => exact Iff.rfl
  | cons x t ih =>
    obtain ⟨depth, _ | m⟩ := x
    · obtain ⟨⟨y, hy, rfl⟩, ht⟩ := ht
      obtain ⟨t, rfl⟩ := List.head?_eq_some_iff.mp hy
      have hskip : dense ((y.1, none) :: y :: t) = dense (y :: t) := rfl
      rw [hskip, ← ih ht]
      simp only [Climbs]
      exact ⟨fun h => ⟨h.1, h.2.2⟩, fun h => ⟨h.1, Nat.le_succ _, h.2⟩⟩
    · exact and_congr_right fun _ => ih ht

theorem covered_append (hs : Covered s) (ht : Covered t) : Covered (s ++ t) := by
  induction s with
  | nil => exact ht
  | cons x s ih =>
    obtain ⟨depth, _ | m⟩ := x
    · obtain ⟨⟨y, hy, hdepth⟩, hs⟩ := hs
      refine ⟨⟨y, ?_, hdepth⟩, ih hs⟩
      change (s ++ t).head? = some y
      rw [List.head?_append, hy]
      rfl
    · exact ih hs

end Trace

namespace Page
variable {tags : TagTable} {unit : Text} {p q : Page} {depth : Nat} {entry : Option Text}

def step (tags : TagTable) (unit : Text) (x : Nat × Option (Markup Text)) (p : Page) :
    Except Fault Page :=
  match x.2 with
  | none => p.enter tags unit x.1 none
  | some m => p.put tags unit x.1 m

def follow (tags : TagTable) (unit : Text) : Trace → Page → Except Fault Page
  | [], p => .ok p
  | x :: t, p => do follow tags unit t (← p.step tags unit x)

theorem follow_append (s t : Trace) :
    p.follow tags unit (s ++ t) = p.follow tags unit s >>= follow tags unit t := by
  induction s generalizing p with
  | nil => rfl
  | cons x s ih =>
    rw [List.cons_append, follow, follow]
    cases p.step tags unit x with
    | error f => rfl
    | ok q => exact ih

variable {x : Nat × Option (Markup Text)} {t : Trace}

theorem follow_cons_eq_ok (h : p.follow tags unit (x :: t) = .ok q) :
    ∃ r, p.step tags unit x = .ok r ∧ r.follow tags unit t = .ok q := by
  rw [follow] at h
  cases hr : p.step tags unit x with
  | error f =>
    rw [hr] at h
    cases h
  | ok r =>
    rw [hr] at h
    exact ⟨r, rfl, h⟩

theorem follow_append_eq_ok {s : Trace} (h : p.follow tags unit (s ++ t) = .ok q) :
    ∃ r, p.follow tags unit s = .ok r ∧ r.follow tags unit t = .ok q := by
  rw [follow_append] at h
  cases hr : p.follow tags unit s with
  | error f =>
    rw [hr] at h
    cases h
  | ok r =>
    rw [hr] at h
    exact ⟨r, rfl, h⟩

theorem step_ok (h : p.step tags unit x = .ok q) : q.Regular ∧ q.room = x.1 + 1 := by
  obtain ⟨depth, _ | m⟩ := x
  · obtain ⟨n, _, rfl⟩ := enter_ok h
    exact ⟨regular_push, room_push⟩
  · obtain ⟨_, r, hr, rfl⟩ := put_ok h
    obtain ⟨n, _, rfl⟩ := enter_ok hr
    exact ⟨regular_push.write, by rw [room_write, room_push]⟩

theorem follow_room (h : p.follow tags unit t = .ok q) : q.room = t.roomAfter p.room := by
  induction t generalizing p with
  | nil =>
    cases h
    rfl
  | cons x t ih =>
    obtain ⟨r, hx, h⟩ := follow_cons_eq_ok h
    rw [ih h, (step_ok hx).2]
    rfl

/-! ## Balanced pages -/

/-- Every level up to the latest line holds one entry. -/
structure Balanced (p : Page) : Prop extends p.Regular where
  length : p.elements.length = p.room

theorem balanced_empty : ({} : Page).Balanced := ⟨⟨Int.le_refl _, fun _ => rfl⟩, rfl⟩

theorem Balanced.enter_eq (hp : p.Balanced) (hd : depth ≤ p.room) : p.enter tags unit depth entry =
      .ok (((Page.pop tags unit)^[p.room - depth] p).push depth entry) := by
  rw [Page.enter_eq hp.toRegular hd, if_pos (by rw [hp.length]; exact Nat.sub_le _ _)]

theorem Balanced.pops_push (hp : p.Balanced) (hd : depth ≤ p.room) :
    (((pop tags unit)^[p.room - depth] p).push depth entry).Balanced := by
  refine ⟨regular_push, ?_⟩
  have hlength := hp.length
  simp only [room_push, push_elements, pops_elements, List.length_cons, List.length_drop]
  omega

theorem Balanced.step (hp : p.Balanced) (hx : x.1 ≤ p.room)
    (h : p.step tags unit x = .ok q) : q.Balanced := by
  obtain ⟨depth, _ | m⟩ := x
  · rw [step, hp.enter_eq hx] at h
    cases h
    exact hp.pops_push hx
  · obtain ⟨_, r, hr, rfl⟩ := put_ok h
    rw [hp.enter_eq hx] at hr
    cases hr
    have hb : (((pop tags unit)^[p.room - depth] p).push depth
      (m.ending (unit.times depth))).Balanced := hp.pops_push hx
    exact ⟨hb.toRegular.write, hb.length⟩

theorem Balanced.enter_step (hp : p.Balanced) (hx : x.1 ≤ p.room) :
    (p.enter tags unit x.1 none >>= Page.step tags unit x) = p.step tags unit x := by
  obtain ⟨depth, entry⟩ := x
  have henter : ∀ entry : Option Text,
      (((Page.pop tags unit)^[p.room - depth] p).push depth none).enter tags unit depth entry =
        p.enter tags unit depth entry := by
    intro entry
    rw [(hp.pops_push hx).enter_eq (by simp), hp.enter_eq hx, room_push, Nat.add_sub_cancel_left]
    rfl
  rw [hp.enter_eq hx]
  change Page.step tags unit (depth, entry) _ = _
  cases entry with
  | none => exact henter none
  | some m =>
    simp [Page.step, Page.put, henter]

theorem Balanced.follow_dense (hp : p.Balanced) (hc : t.Climbs p.room)
    (ht : t.Covered) : p.follow tags unit t = p.follow tags unit t.dense := by
  induction t generalizing p with
  | nil => rfl
  | cons x t ih =>
    obtain ⟨depth, _ | m⟩ := x
    · obtain ⟨⟨y, hy, rfl⟩, ht⟩ := ht
      obtain ⟨t, rfl⟩ := List.head?_eq_some_iff.mp hy
      have hskip : p.follow tags unit ((y.1, none) :: y :: t) = p.follow tags unit (y :: t) := by
        have hstep : (p.enter tags unit y.1 none >>= Page.step tags unit y) = p.step tags unit y :=
          hp.enter_step hc.1
        rw [follow, follow, ← hstep]
        simp only [Page.step, hp.enter_eq hc.1]
        rfl
      rw [hskip, ih hp ⟨hc.1, hc.2.2⟩ ht]
      rfl
    · rw [Trace.dense, List.filter_cons_of_pos rfl, follow, follow]
      cases hq : p.step tags unit (depth, some m) with
      | error f => rfl
      | ok q =>
        refine ih (hp.step hc.1 hq) ?_ ht
        rw [(step_ok hq).2]
        exact hc.2

/-! ## Closing a balanced page -/

section Closing
variable {k : Nat}

/-- Closes all but `k` entries of a balanced page. -/
def closeTo (tags : TagTable) (unit : Text) (k : Nat) (p : Page) : Page :=
  (pop tags unit)^[p.room - k] p

theorem closeTo_room : p.closeTo tags unit p.room = p := by
  rw [closeTo, Nat.sub_self]
  rfl

theorem closeTo_succ (hk : k < p.room) :
    p.closeTo tags unit k = (p.closeTo tags unit (k + 1)).pop tags unit := by
  have hroom : p.room - k = (p.room - (k + 1)) + 1 := by omega
  rw [closeTo, hroom, Function.iterate_succ_apply', closeTo]

theorem closeTo_level : (p.closeTo tags unit k).level = p.level := pops_level _

theorem closeTo_lastElement : (p.closeTo tags unit k).lastElement = p.lastElement := pops_lastElement _

theorem lt_level_of_lt_room (h : k + 1 < p.room) : (k : Int) < p.level := by
  rw [room] at h
  split at h
  · exact absurd h (Nat.not_lt_zero _)
  · omega

theorem Balanced.put_eq (hp : p.Balanced) (unit : Text) {m : Markup Text} (hm : m.check tags = .ok ())
    (hk : k ≤ p.room) : p.put tags unit k m =
      .ok (((p.closeTo tags unit k).push k (m.ending (unit.times k))).write unit k m) := by
  rw [put, hm, hp.enter_eq hk]
  rfl

end Closing
end Page
end OutlineMarkup
