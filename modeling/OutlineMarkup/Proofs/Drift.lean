import OutlineMarkup.Proofs.NestedLoops
import OutlineMarkup.Proofs.Rendering

/-!
# Loops and open elements

After a line at depth `k` there is one open element for each level, `k + 1` in all, as long as no
loop has been met while another one was open. The line of such a loop is entered at the level of the
line before it, although that line has not been placed yet; so the number of open elements drifts by
the difference of the two depths, and stays wrong by as much until the end. A line that would leave
less than one element open fails.
-/

namespace OutlineMarkup
open List Compile

inductive Row where
  | markup (m : Markup Text)
  | loop (iterator : Text) (items : List Text)
  deriving Repr, DecidableEq

namespace Row

def written : Row → Text
  | markup m => m.written
  | loop v items => loopText v items

def iterator? : Row → Option Text
  | markup _ => none
  | loop v _ => some v

def IsWellFormed (tags : TagTable) : Row → Prop
  | markup m => m.isPlain = true ∧ isUnreserved m.written = true ∧ m.isAllowed tags = true
  | loop v items => IsLoop v items

instance (tags : TagTable) : DecidablePred (IsWellFormed tags)
  | markup m => inferInstanceAs
    (Decidable (m.isPlain = true ∧ isUnreserved m.written = true ∧ m.isAllowed tags = true))
  | loop v items => inferInstanceAs (Decidable (IsLoop v items))

end Row

/-- Rows by depth: the variables of loops are distinct, and the rows are well indented. -/
@[mk_iff] structure AreRows (tags : TagTable) (rows : List (Nat × Row)) : Prop where
  wellFormed : ∀ x ∈ rows, x.2.IsWellFormed tags
  distinct : (rows.filterMap (·.2.iterator?)).Nodup
  indented : WellIndented (rows.map (·.1))

instance (tags : TagTable) (rows : List (Nat × Row)) : Decidable (AreRows tags rows) :=
  decidable_of_iff' _ (areRows_iff tags rows)

def rowLines (u : Text) (rows : List (Nat × Row)) : List Text :=
  rows.map fun (k, row) => u.times k ++ row.written

/-! ## Counting -/

structure Tally where
  /-- The depth of the latest row. -/
  last : Nat := 0
  /-- The depth of the outermost loop that the latest row starts or is nested in. -/
  outer : Option Nat := none
  /-- How many elements too many are open. -/
  drift : Int := 0
  /-- How many elements are open. -/
  height : Int := 0
  deriving Repr, DecidableEq

namespace Tally

def next (t : Tally) : Nat × Row → Tally
  | (k, .markup _) =>
    if t.outer.any (· < k) then { t with last := k }
    else { last := k, outer := none, drift := t.drift, height := k + 1 + t.drift }
  | (k, .loop _ _) =>
    match t.outer with
    | none => { last := k, outer := some k, drift := t.drift, height := k + 1 + t.drift }
    | some d =>
      { last := k, outer := some (min d k), drift := t.drift + (k - t.last),
        height := t.height + (k - t.last) }

/-- The count after the rows, unless at some row less than one element would be open. -/
def run : Tally → List (Nat × Row) → Option Tally
  | t, [] => some t
  | t, x :: rows => if 0 < (t.next x).height then (t.next x).run rows else none

theorem last_next (t : Tally) (x : Nat × Row) : (t.next x).last = x.1 := by
  obtain ⟨k, row⟩ := x
  cases row with
  | markup m | loop v items => rw [next]; split <;> rfl

theorem outer_loop (t : Tally) (k : Nat) (v : Text) (items : List Text) (j : Nat) :
    (∃ d ∈ (t.next (k, .loop v items)).outer, d < j) ↔ k < j ∨ ∃ d ∈ t.outer, d < j := by
  cases houter : t.outer with
  | none => simp [next, houter]
  | some d => simp [next, houter, or_comm]

theorem height_run {t t' : Tally} {rows : List (Nat × Row)} {k : Nat} {m : Markup Text}
    (h : t.run rows = some t') (hlast : rows.getLast? = some (k, .markup m)) (houter : t'.outer = none) :
    t'.height = k + 1 + t'.drift := by
  induction rows generalizing t with
  | nil => cases hlast
  | cons x rows ih =>
    rw [run] at h
    split at h
    · cases rows with
      | nil =>
        cases hlast
        cases h
        rw [next] at houter ⊢
        split
        · rename_i hinside
          rw [if_pos hinside] at houter
          have hnone : t.outer = none := houter
          rw [hnone] at hinside
          cases hinside
        · rfl
      | cons y rows => exact ih h (by rwa [getLast?_cons_cons] at hlast)
    · cases h

end Tally

structure Tallied (tags : TagTable) (u : Text) (t : Tally) (R : Routines) (started : List Text)
    (stack : List OpenLoop) (s : Session) : Prop where
  nested : Nested tags u R started stack s
  last : stack ≠ [] → s.page.room = t.last + 1
  top : ∀ L ∈ stack.head?, L.room = s.page.room
  outer : ∀ k, (∃ d ∈ t.outer, d < k) ↔ ∃ L ∈ stack, L.depth < k
  height : (s.page.elements.length : Int) = t.height
  drift : t.height = ground (stack.map (·.depth)) s.page + t.drift
  positive : stack ≠ [] → 0 < t.height
  bounded : stack.length ≤ started.length

namespace Tallied
variable {tags : TagTable} {u e : Text} {t : Tally} {R : Routines} {started : List Text}
  {stack : List OpenLoop} {s : Session} {k N : Nat} {m : Markup Text}

theorem any_outer (h : Tallied tags u t R started stack s) (k : Nat) :
    t.outer.any (· < k) ↔ ∃ L ∈ stack, L.depth < k := by
  rw [← h.outer k, Option.any_eq_true]
  simp

theorem exists_depth_lt {stack' : List OpenLoop} (hinside : ∃ L ∈ stack, L.depth < k)
    (hdepths : stack'.map (·.depth) = (stack.map (·.depth)).dropWhile (k ≤ ·)) (j : Nat) :
    (∃ L ∈ stack', L.depth < j) ↔ ∃ L ∈ stack, L.depth < j := by
  have hkept : ∀ L ∈ stack, L.depth < k → ∃ M ∈ stack', M.depth = L.depth := by
    intro L hL hlt
    have hmem := mem_dropWhile (p := (k ≤ ·)) (mem_map_of_mem (f := (·.depth)) hL) (by simpa using hlt)
    rw [← hdepths] at hmem
    exact mem_map.mp hmem
  constructor
  · rintro ⟨L, hL, hlt⟩
    have hmem : L.depth ∈ stack'.map (·.depth) := mem_map_of_mem hL
    rw [hdepths] at hmem
    obtain ⟨M, hM, hd⟩ := mem_map.mp ((dropWhile_suffix _).subset hmem)
    exact ⟨M, hM, hd ▸ hlt⟩
  · rintro ⟨L, hL, hlt⟩
    by_cases hk : L.depth < k
    · obtain ⟨M, hM, hd⟩ := hkept L hL hk
      exact ⟨M, hM, hd ▸ hlt⟩
    · obtain ⟨L', hL', hlt'⟩ := hinside
      obtain ⟨M, hM, hd⟩ := hkept L' hL' hlt'
      exact ⟨M, hM, by omega⟩

section Counted
variable (h : Tallied tags u t R started stack s)
include h

theorem of_fed {r : Except Fault Unit × Session}
    (hfed : Fed tags u started t.drift started.length R stack s (k, .markup m) r) :
    if 0 < (t.next (k, .markup m)).height then ∃ s' R' stack', r = (.ok (), s') ∧ s'.page.room = k + 1 ∧
        Tallied tags u (t.next (k, .markup m)) R' started stack' s' else r.1 = .error .outOfRange := by
  have houtside : (∀ L ∈ stack, k ≤ L.depth) → t.next (k, .markup m) =
      { last := k, outer := none, drift := t.drift, height := k + 1 + t.drift } := by
    intro hout
    have hany : ¬ t.outer.any (· < k) := by
      rw [h.any_outer]
      rintro ⟨L, hL, hlt⟩
      exact absurd (hout L hL) (by omega)
    rw [Tally.next, if_neg hany]
  cases hfed with
  | @kept s' R' stack' inside nest depths room below page some unit =>
    have hnext : t.next (k, .markup m) = { t with last := k } := by
      rw [Tally.next, if_pos ((h.any_outer k).mpr inside)]
    have hne : stack ≠ [] := by
      rintro rfl
      obtain ⟨L, hL, _⟩ := inside
      cases hL
    have hroom : s'.page.room = k + 1 := by
      rw [page, Page.room_atLevel (h.nested.collecting.entered hne)]
    have hdrop : (stack.map (·.depth)).dropWhile (k ≤ ·) ≠ [] := by
      obtain ⟨L, hL, hlt⟩ := inside
      exact ne_nil_of_mem
        (mem_dropWhile (mem_map_of_mem (f := (·.depth)) hL) (by simpa using hlt))
    have hlength := congrArg length depths
    have hsuffix := (dropWhile_suffix (p := (k ≤ ·)) (l := stack.map (·.depth))).length_le
    simp only [length_map] at hlength hsuffix
    rw [hnext, if_pos (h.positive hne)]
    refine ⟨s', R', stack', rfl, hroom, nest, fun _ => hroom, fun L hL => (room L hL).trans hroom.symm,
      fun j => (h.outer j).trans (exists_depth_lt inside depths j).symm, ?_, ?_,
      fun _ => h.positive hne, ?_⟩
    · rw [page]
      exact h.height
    · rw [depths, ground_dropWhile hdrop s'.page s.page]
      exact h.drift
    · exact hlength.le.trans (hsuffix.trans h.bounded)
  | @ran s' R' outside enough nest page room markup some unit =>
    have hroom := markup m rfl
    have hheight : (s'.page.elements.length : Int) = k + 1 + t.drift := by
      rw [page, hroom]
      rfl
    have henough : 0 < (k : Int) + 1 + t.drift := by
      have hk : 0 ≤ (k : Int) + t.drift := enough
      omega
    rw [houtside outside, if_pos henough]
    refine ⟨s', R', [], rfl, hroom, nest, by simp, by simp, by simp, hheight, ?_, by simp, Nat.zero_le _⟩
    change (k : Int) + 1 + t.drift = (s'.page.room : Int) + t.drift
    rw [hroom]
    rfl
  | failed outside few =>
    have hfew : ¬ 0 < (k : Int) + 1 + t.drift := by
      have hk : (k : Int) + t.drift < 0 := few
      omega
    rw [houtside outside, if_neg hfew]

theorem markup (hu : isUnit u) (hm : (Row.markup m).IsWellFormed tags) (hk : k ≤ s.page.room)
    (hN : 2 * started.length ≤ N) (he : LineEnd e) : if 0 < (t.next (k, .markup m)).height then
      ∃ s' R' stack', (lineTo (N + 1) (sourceLine u k m.written e)).runFrom s = (.ok (), s') ∧
        s'.page.room = k + 1 ∧ Tallied tags u (t.next (k, .markup m)) R' started stack' s'
    else ((lineTo (N + 1) (sourceLine u k m.written e)).runFrom s).1 = .error .outOfRange := by
  obtain ⟨hshaped, hun, hallowed⟩ := hm
  have hcollecting := h.nested.collecting
  have hready : R.Ready tags started.length (.markup m) := by
    refine ⟨hshaped, hun, fun m' hm' => ?_, fun _ _ _ heq => by cases heq⟩
    cases hm'
    exact (Markup.check_eq_ok_iff hshaped).mpr hallowed
  have hbelow : ∀ L ∈ stack, L.index < started.length := fun L hL => hcollecting.index_lt hL
  have hbounded := h.bounded
  have hentries : (s.page.elements.length : Int) = ground (stack.map (·.depth)) s.page + t.drift :=
    h.height.trans h.drift
  refine h.of_fed (r := (lineTo (N + 1) (sourceLine u k m.written e)).runFrom s) ?_
  cases hstack : stack with
  | nil =>
    subst hstack
    exact h.nested.fed_nil (x := (k, .markup m)) hu hready hk hentries (by omega) he
  | cons L stack =>
    subst hstack
    by_cases hL : L.depth < k
    · exact h.nested.fed_record (x := (k, .markup m)) hu hready hbelow hL
        (by rw [h.top L rfl]; exact hk) (hcollecting.idle.reads hk) he
    · have hunit : s.indentation.unit = some u ∨ k = 0 := by
        refine hcollecting.unit.imp id fun hzero => ?_
        have hdepth := hzero L mem_cons_self
        omega
      have hfits : ∀ x ∈ [(k, Item.markup m)].head?, ∀ M ∈ (L :: stack).head?, x.1 ≤ M.room := by
        rintro x ⟨⟩ M hM
        rw [h.top M hM]
        exact hk
      have hq : Queued tags u started t.drift started.length N R (L :: stack) s [(k, .markup m)] :=
        ⟨h.nested, by simpa using hready, hbelow, by omega, .singleton _, hfits, by simp,
          by simpa using hunit, hentries⟩
      have hacts : Forall₂ (Handles u N) [(k, Item.markup m)]
          [lineTo (N + 1) (sourceLine u k m.written e)] := .cons ⟨e, he, fun _ _ _ => rfl⟩ .nil
      have hfed := hq.fed hu hacts (y := (k, .markup m)) rfl
      rw [Action.runFrom_forM_cons, id_eq] at hfed
      generalize (lineTo (N + 1) (sourceLine u k m.written e)).runFrom s = r at hfed ⊢
      rcases r with ⟨_ | _, t⟩ <;> exact hfed

theorem outer_eq_none_iff : t.outer = none ↔ stack = [] := by
  constructor
  · intro hnone
    by_contra hne
    obtain ⟨L, stack, rfl⟩ := exists_cons_of_ne_nil hne
    obtain ⟨d, hd, _⟩ := (h.outer (L.depth + 1)).mpr ⟨L, mem_cons_self, Nat.lt_succ_self _⟩
    rw [hnone] at hd
    cases hd
  · rintro rfl
    by_contra hne
    obtain ⟨d, hd⟩ := Option.ne_none_iff_exists'.mp hne
    obtain ⟨L, hL, _⟩ := (h.outer (d + 1)).mp ⟨d, hd, Nat.lt_succ_self d⟩
    cases hL

theorem height_loop (k : Nat) (v : Text) (items : List Text) :
    (t.next (k, .loop v items)).height = k + 1 + (t.height - s.page.room) := by
  cases houter : t.outer with
  | none =>
    have hdrift := h.drift
    rw [h.outer_eq_none_iff.mp houter] at hdrift
    have hground : t.height = s.page.room + t.drift := hdrift
    simp only [Tally.next, houter]
    omega
  | some d =>
    have hne : stack ≠ [] := fun hnil => by simp [h.outer_eq_none_iff.mpr hnil] at houter
    have hlast := h.last hne
    simp only [Tally.next, houter]
    omega

theorem drift_loop (k : Nat) (v : Text) (items : List Text) (p : Page) : (t.next (k, .loop v items)).height =
      ground (k :: stack.map (·.depth)) p + (t.next (k, .loop v items)).drift := by
  cases houter : t.outer with
  | none =>
    rw [h.outer_eq_none_iff.mp houter]
    simp only [Tally.next, houter]
    rfl
  | some d =>
    have hne : stack ≠ [] := fun hnil => by simp [h.outer_eq_none_iff.mpr hnil] at houter
    obtain ⟨M, stack, rfl⟩ := exists_cons_of_ne_nil hne
    have hdrift := h.drift
    rw [map_cons] at hdrift
    rw [map_cons, ground_cons_cons k _ _ p s.page]
    simp only [Tally.next, houter]
    omega

theorem loop (hu : isUnit u) {v : Text} {items : List Text} (hl : IsLoop v items) (hv : v ∉ started)
    (hk : k ≤ s.page.room) (he : LineEnd e) : if 0 < (t.next (k, .loop v items)).height then ∃ s' R' stack',
        (lineTo (N + 1) (sourceLine u k (loopText v items) e)).runFrom s = (.ok (), s') ∧
        s'.page.room = k + 1 ∧ Tallied tags u (t.next (k, .loop v items)) R' (started ++ [v]) stack' s'
    else ((lineTo (N + 1) (sourceLine u k (loopText v items) e)).runFrom s).1 = .error .outOfRange := by
  have hcollecting := h.nested.collecting
  have hexceeds : s.page.Exceeds (t.height - s.page.room) := by
    rw [Page.Exceeds, h.height]
    omega
  have henter := hexceeds.enter tags u hcollecting.idle.regular hk none
  have hheight := h.height_loop k v items
  by_cases hpos : 0 < (t.next (k, .loop v items)).height
  · rw [if_pos hpos]
    rw [if_pos (by omega)] at henter
    obtain ⟨p, hp, hp'⟩ := henter
    obtain ⟨s', hrun, rfl, hs'⟩ := hcollecting.start (lineTo N) hl
      (fun w hw => hl.isUnreserved_item hw) hv hu he hk hp
    have hroom : s'.page.room = k + 1 := (Page.step_ok (x := (k, none)) hp).2
    refine ⟨s', R.set (loopName started.length) ⟨[v], false, []⟩,
      ⟨started.length, k, v, items, []⟩ :: stack, hrun, hroom, ?_⟩
    constructor
    case nested =>
      refine ⟨hs', h.nested.tame.start _ v, ?_⟩
      cases stack with
      | nil => exact .singleton _
      | cons M stack => exact .cons_cons (by rw [h.top M rfl]; exact hk) h.nested.chain
    case last =>
      rw [Tally.last_next]
      exact fun _ => hroom
    case top =>
      rintro L ⟨⟩
      exact hroom.symm
    case outer =>
      intro j
      rw [t.outer_loop, h.outer]
      simp
    case height =>
      rw [Page.Exceeds, hroom] at hp'
      rw [hp', hheight]
      push_cast
      rfl
    case drift => exact h.drift_loop k v items _
    case positive => exact fun _ => hpos
    case bounded =>
      rw [length_cons, length_append]
      exact Nat.succ_le_succ h.bounded
  · rw [if_neg hpos]
    rw [if_neg (by omega)] at henter
    have hline := line_loop (lineTo N) hl.header hu he hcollecting.idle hk (hcollecting.fresh hv)
    rw [henter] at hline
    exact hline

theorem row (hu : isUnit u) {x : Nat × Row} (hx : x.2.IsWellFormed tags)
    (hfresh : ∀ v ∈ x.2.iterator?, v ∉ started) (hk : x.1 ≤ s.page.room)
    (hN : 2 * started.length ≤ N) (he : LineEnd e) : if 0 < (t.next x).height then
      ∃ s' R' stack', (lineTo (N + 1) (sourceLine u x.1 x.2.written e)).runFrom s = (.ok (), s') ∧
        s'.page.room = x.1 + 1 ∧ Tallied tags u (t.next x) R' (started ++ x.2.iterator?.toList) stack' s'
    else ((lineTo (N + 1) (sourceLine u x.1 x.2.written e)).runFrom s).1 = .error .outOfRange := by
  obtain ⟨k, m | ⟨v, items⟩⟩ := x
  · have hmarkup := h.markup hu hx hk hN he
    rwa [show started ++ (Row.markup m).iterator?.toList = started from append_nil _]
  · exact h.loop hu hx (hfresh v rfl) hk he

theorem rows (hu : isUnit u) {rows : List (Nat × Row)} (hrows : ∀ x ∈ rows, x.2.IsWellFormed tags)
    (hfresh : (started ++ rows.filterMap (·.2.iterator?)).Nodup)
    (hc : Trace.Climbs s.page.room (rows.map fun x => (x.1, none)))
    (hN : 2 * (started.length + rows.length) ≤ N) {xs : List Text}
    (hxs : Forall₂ IsEnded (rowLines u rows) xs) :
    match t.run rows with
    | some t' => ∃ s' R' started' stack', (xs.forM (lineTo (N + 1))).runFrom s = (.ok (), s') ∧
        Tallied tags u t' R' started' stack' s'
    | none => ((xs.forM (lineTo (N + 1))).runFrom s).1 = .error .outOfRange := by
  induction rows generalizing t R started stack s xs with
  | nil =>
    cases hxs
    exact ⟨s, R, started, stack, rfl, h⟩
  | cons x rows ih =>
    rcases hxs with _ | ⟨⟨e, he, rfl⟩, hxs⟩
    rename_i xs
    have hiterators : started ++ (x :: rows).filterMap (·.2.iterator?) =
        started ++ x.2.iterator?.toList ++ rows.filterMap (·.2.iterator?) := by
      cases hv : x.2.iterator? <;> simp [hv]
    rw [hiterators] at hfresh
    have hnew : ∀ v ∈ x.2.iterator?, v ∉ started := by
      intro v hv hmem
      have hdisjoint := (nodup_append.mp (nodup_append.mp hfresh).1).2.2
      exact hdisjoint v hmem v (Option.mem_toList.mpr hv) rfl
    have hone := h.row (N := N) hu (hrows x mem_cons_self) hnew hc.1 (by omega) he
    rw [sourceLine] at hone
    rw [Action.runFrom_forM_cons, append_assoc, Tally.run]
    by_cases hpos : 0 < (t.next x).height
    · rw [if_pos hpos] at hone ⊢
      obtain ⟨s₁, R₁, stack₁, hrun, hroom, h₁⟩ := hone
      rw [hrun]
      have hlength : (started ++ x.2.iterator?.toList).length ≤ started.length + 1 := by
        rw [length_append]
        cases x.2.iterator? <;> simp
      rw [length_cons] at hN
      exact ih h₁ (forall_mem_cons.mp hrows).2 hfresh (hroom ▸ hc.2) (by omega) hxs
    · rw [if_neg hpos] at hone ⊢
      generalize (lineTo (N + 1) (u.times x.1 ++ (x.2.written ++ e))).runFrom s = r at hone ⊢
      obtain ⟨_ | _, s'⟩ := r
      · exact hone
      · cases hone

end Counted

end Tallied

namespace AreRows
variable {tags : TagTable} {u : Text} {rows before after : List (Nat × Row)}

theorem line_signs (h : AreRows tags rows) (hu : isUnit u) : ∀ l ∈ rowLines u rows, Unbroken l := by
  intro l hl
  obtain ⟨⟨k, row⟩, hx, rfl⟩ := mem_map.mp hl
  have hrow := h.wellFormed _ hx
  cases row with
  | markup m =>
    exact (Markup.spells_written hrow.1 hrow.2.1).calm.line_signs hu
  | loop v items => exact (IsLoop.header hrow).line_signs hu

theorem climbs (h : AreRows tags rows) : Trace.Climbs 0 (rows.map fun x => (x.1, none)) := by
  refine WellIndented.climbs ?_
  rw [map_map]
  exact h.indented

end AreRows

namespace Document
variable {tags : TagTable} {files : Files} {path u : Text}

theorem tallied_start (tags : TagTable) (files : Files) (path u : Text) :
    Tallied tags u {} (fun _ => none) [] [] (start tags files path) :=
  ⟨⟨collecting_start tags files path u, ⟨fun h => (by cases h), fun h => (by cases h)⟩, .nil⟩, by simp,
    by simp, by simp, rfl, rfl, by simp, Nat.le_refl _⟩

def runFirst (tags : TagTable) (files : Files) (path text : Text) (n : Nat) :
    Except Fault Unit × Session :=
  ((((Source.lines text).map (·.2)).take n).forM (handle tags files path)).runFrom (start tags files path)

/-- However loops are arranged, what is open after each line is what is counted: outside all loops
there is one element for each level but for the drift. -/
theorem runFirst_eq_tally (tags : TagTable) (u : Text) (before after : List (Nat × Row))
    (terminated : Bool) (files : Files) (path text : Text)
    (htext : text = sourceText (rowLines u (before ++ after)) terminated)
    (hread : HasFile files path text)
    (hu : isUnit u = true) (hrows : AreRows tags (before ++ after)) :
    match Tally.run {} before with
    | some t => ∃ s, runFirst tags files path text before.length = (.ok (), s) ∧
        (s.elements.length : Int) = t.height ∧ (t.outer = none → s.loops = []) ∧
        ∀ k m, before.getLast? = some (k, .markup m) → t.outer = none →
          (s.elements.length : Int) = k + 1 + t.drift
    | none => (runFirst tags files path text before.length).1 = .error .outOfRange ∧
        (compile tags files path).fault = some .outOfRange := by
  have hlines := source_lines (hrows.line_signs hu) terminated
  have hlength := length_le_sourceText (fun l hl => (hrows.line_signs hu l hl).1) terminated
  obtain ⟨n, hn, hhandle⟩ := handle_eq tags hread
  rw [← htext] at hlines hlength
  have htake : (rowLines u (before ++ after)).take before.length = rowLines u before := by
    simp [rowLines]
  have hxs := List.forall₂_take before.length (forall₂_ended (rowLines u (before ++ after)) terminated)
  rw [htake, ← hlines] at hxs
  have hclimbs := hrows.climbs
  rw [List.map_append, Trace.climbs_append] at hclimbs
  have hdistinct : (([] : List Text) ++ before.filterMap (·.2.iterator?)).Nodup :=
    hrows.distinct.sublist (List.Sublist.filterMap _ (List.sublist_append_left before after))
  have hbound : 2 * (([] : List Text).length + before.length) ≤ n := by
    rw [rowLines, List.length_map, List.length_append] at hlength
    rw [List.length_nil]
    omega
  have hrun := (tallied_start tags files path u).rows hu
    (fun x hx => hrows.wellFormed x (List.mem_append_left after hx)) hdistinct hclimbs.1 hbound hxs
  rw [← hhandle] at hrun
  cases ht : Tally.run {} before with
  | none =>
    rw [ht] at hrun
    have hfails : (runFirst tags files path text before.length).1 = .error .outOfRange := hrun
    refine ⟨hfails, compile_of_error hread (f := .outOfRange) ?_⟩
    rw [← List.take_append_drop before.length ((Source.lines text).map (·.2)), Action.runFrom_forM_append]
    rw [runFirst] at hfails
    split
    · rename_i hok
      rw [hok] at hfails
      cases hfails
    · rename_i herror
      rwa [herror] at hfails
  | some t =>
    rw [ht] at hrun
    obtain ⟨s, R, started, stack, hs, htallied⟩ := hrun
    refine ⟨s, hs, htallied.height, fun houter => ?_, fun k m hlast houter => ?_⟩
    · rw [htallied.nested.collecting.loops, htallied.outer_eq_none_iff.mp houter]
      rfl
    · exact htallied.height.trans (Tally.height_run ht hlast houter)

def levelLoops : List (Nat × Row) :=
  [(0, .markup (.element "ul" none true)), (1, .loop "v" ["a", "b"]),
    (2, .markup (.element "li" none false)), (2, .loop "w" ["c"]),
    (3, .markup (.element "p" none false)), (1, .markup (.text "x"))]

theorem runFirst_eq_tally_levelLoops : ∃ s, runFirst sampleTags
    [("a", sourceText (rowLines "\t" levelLoops) true)] "a"
      (sourceText (rowLines "\t" levelLoops) true) 6 = (.ok (), s) ∧
    (s.elements.length : Int) = 2 ∧ s.loops = [] := by
  obtain ⟨s, hrun, hheight, hloops, _⟩ := runFirst_eq_tally sampleTags "\t" levelLoops [] true
    [("a", sourceText (rowLines "\t" levelLoops) true)] "a"
    (sourceText (rowLines "\t" levelLoops) true) (by decide +kernel) (by decide +kernel) (by decide)
    (by decide +kernel)
  exact ⟨s, hrun, hheight, hloops rfl⟩

def adjacentLoops : List (Nat × Row) :=
  [(0, .loop "i" ["a"]), (1, .markup (.element "p" none false)),
    (0, .loop "j" ["b"]), (1, .markup (.element "q" none false))]

def directLoops : List (Nat × Row) :=
  [(0, .loop "i" ["a"]), (1, .loop "j" ["b"]),
    (2, .markup (.element "p" none false)), (0, .markup (.element "q" none false))]

/-- Nothing is left open for the second loop, or too much after both of them. -/
theorem adjacentLoops_outOfRange :
    AreRows sampleTags adjacentLoops ∧
      (compile sampleTags [("a", sourceText (rowLines "\t" adjacentLoops) true)]
        "a").fault = some .outOfRange ∧
      AreRows sampleTags directLoops ∧
      (runFirst sampleTags [("a", sourceText (rowLines "\t" directLoops) true)] "a"
        (sourceText (rowLines "\t" directLoops) true) 4).2.elements.length = 2 :=
  ⟨by decide +kernel, by decide +kernel, by decide +kernel, by decide +kernel⟩

end Document
end OutlineMarkup
