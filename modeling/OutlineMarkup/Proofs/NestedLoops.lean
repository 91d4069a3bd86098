import OutlineMarkup.Proofs.OpenLoops

/-!
# Nested loops

Loops may be open inside one another. A line is kept with the innermost loop that it is nested in,
and ends every loop on the way there: a loop that ends hands its calls on to the next one. Only when
the last loop has ended do lines reach the page, which goes on from the level of that loop.
-/

namespace OutlineMarkup
open List Compile Program Trace Item Page OpenLoop Action

/-! ## Carrying out calls -/

theorem exists_forall₂ {α β : Type} {P : α → β → Prop} {as : List α} (h : ∀ a ∈ as, ∃ b, P a b) :
    ∃ bs, Forall₂ P as bs := by
  induction as with
  | nil => exact ⟨[], .nil⟩
  | cons a as ih =>
    obtain ⟨b, hb⟩ := h a mem_cons_self
    obtain ⟨bs, hbs⟩ := ih (forall_mem_cons.mp h).2
    exact ⟨b :: bs, .cons hb hbs⟩

namespace Trace

theorem le_roomAfter {n k : Nat} {t : Trace} (hne : t ≠ []) (h : ∀ x ∈ t, k ≤ x.1) :
    k + 1 ≤ roomAfter n t := by
  induction t generalizing n with
  | nil => exact absurd rfl hne
  | cons x t ih =>
    have hx := h x mem_cons_self
    cases t with
    | nil => exact Nat.succ_le_succ hx
    | cons y t => exact ih (n := x.1 + 1) (by simp) (forall_mem_cons.mp h).2

end Trace

/-- Lines from a depth on, as a line at that depth comes to them: the grammar accepts their markup. -/
structure Carried (tags : TagTable) (k : Nat) (lines : List (Nat × Item Text)) : Prop where
  depths : ∀ y ∈ lines, k ≤ y.1
  unreserved : ∀ y ∈ lines, isUnreserved y.2.written = true
  checked : ∀ y ∈ lines, ∀ m, y.2 = .markup m → m.check tags = .ok ()
  climbs : (Program.trace lines).Climbs k
  nonempty : lines ≠ []

namespace Carried
variable {tags : TagTable} {k : Nat} {lines : Items}

theorem trace_depths (h : Carried tags k lines) : ∀ y ∈ trace lines, k ≤ y.1 := by
  intro y hy
  obtain ⟨z, hz, rfl⟩ := mem_map.mp hy
  exact h.depths z hz

theorem trace_checked (h : Carried tags k lines) : ∀ y ∈ trace lines, ∀ m ∈ y.2, m.check tags = .ok () := by
  intro y hy m hm
  obtain ⟨⟨j, i⟩, hz, rfl⟩ := mem_map.mp hy
  cases i with
  | call name arguments colon => cases hm
  | markup m' =>
    cases hm
    exact h.checked _ hz _ rfl

theorem lt_roomAfter (h : Carried tags k lines) (n : Nat) : k < (trace lines).roomAfter n :=
  le_roomAfter (by simpa [trace] using h.nonempty) h.trace_depths

end Carried

theorem climbs_flatten {tags : TagTable} {xs : Items} {parts : List (Items)} {n : Nat}
    (h : Forall₂ (fun x part => Carried tags x.1 part) xs parts)
    (hc : Climbs n (xs.map fun x => (x.1, none))) : (trace parts.flatten).Climbs n := by
  induction h generalizing n with
  | nil => trivial
  | @cons x part xs parts hx _ ih =>
    rw [flatten_cons, trace_append, climbs_append]
    exact ⟨hx.climbs.mono hc.1, (ih hc.2).mono (hx.lt_roomAfter n)⟩

namespace Routines
variable {tags : TagTable} {R : Routines} {started arguments : List Text} {lo n k j d : Nat}
  {i : Item Text} {r : Routine}

/-- A line that can be carried out or kept: markup that the grammar accepts, or the call of a loop
with a number from `lo` on. -/
structure Ready (tags : TagTable) (R : Routines) (lo : Nat) (i : Item Text) : Prop where
  shaped : i.isPlain = true
  unreserved : isUnreserved i.written = true
  checked : ∀ m, i = .markup m → m.check tags = .ok ()
  calls : ∀ name arguments colon, i = .call name arguments colon →
    (arguments.getD []).length = 1 ∧ ∃ j, lo ≤ j ∧ name = Compile.loopName j ∧ (R name).isSome = true

theorem Ready.mono {R' : Routines} {lo' : Nat} (h : R.Ready tags lo i) (hlo : lo' ≤ lo)
    (hsome : ∀ {a}, (R a).isSome → (R' a).isSome) : R'.Ready tags lo' i := by
  refine ⟨h.shaped, h.unreserved, h.checked, fun name arguments colon hi => ?_⟩
  obtain ⟨hlength, j, hj, hname, hR⟩ := h.calls name arguments colon hi
  exact ⟨hlength, j, hlo.trans hj, hname, hsome hR⟩

/-- Bodies have lines without references that climb from level one, and call later loops. -/
structure Tame (tags : TagTable) (R : Routines) : Prop where
  ready : ∀ {i r}, R (Compile.loopName i) = some r → ∀ x ∈ r.body,
    1 ≤ x.1 ∧ ∃ y : Item Text, x.2 = y.literal ∧ R.Ready tags (i + 1) y
  climbs : ∀ {name r}, R name = some r → Trace.Climbs 1 (r.body.map fun x => (x.1, none))

theorem Ready.admits (h : R.Ready tags lo i) (hR : R.AreLoops started) : R.Admits i := by
  cases i with
  | markup m => exact hR.admits_markup h.shaped
  | call name arguments colon =>
    obtain ⟨hlength, j, _, _, hsome⟩ := h.calls name arguments colon rfl
    obtain ⟨r, hr⟩ := Option.isSome_iff_exists.mp hsome
    obtain ⟨_, _, _, _, _, hnames, _⟩ := hR.routine hr
    exact ⟨r, hr, by rw [hnames, hlength]; rfl⟩

theorem Ready.suits (h : R.Ready tags lo i) {v : Text} (hj : j < lo) (hd : d < k) :
    R.Suits j v (k - d, i.literal) := by
  refine ⟨by omega, isSound_literal [v] h.shaped, ?_, fun name arguments colon hi => ?_⟩
  · rw [source_literal]
    exact h.unreserved
  · cases i with
    | markup m => cases hi
    | call name' arguments' colon' =>
      cases hi
      obtain ⟨hlength, l, hl, hname, hsome⟩ := h.calls _ _ _ rfl
      refine ⟨?_, l, by omega, hname, hsome⟩
      cases arguments' with
      | none => cases hlength
      | some ws => simpa using hlength

theorem Tame.start (hT : R.Tame tags) (name v : Text) : (R.set name ⟨[v], false, []⟩).Tame tags := by
  refine ⟨fun {j r} hr x hx => ?_, fun {a r} hr => ?_⟩
  · by_cases hj : loopName j = name
    · rw [hj, set_self] at hr
      cases hr
      cases hx
    · rw [set_ne hj] at hr
      obtain ⟨hone, y, hy, hready⟩ := hT.ready hr x hx
      exact ⟨hone, y, hy, hready.mono (Nat.le_refl _) isSome_set⟩
  · by_cases ha : a = name
    · rw [ha, set_self] at hr
      cases hr
      trivial
    · rw [set_ne ha] at hr
      exact hT.climbs hr

theorem Tame.record (hT : R.Tame tags) (hr : R (loopName j) = some r)
    (hi : R.Ready tags (j + 1) i) (hd : d < k)
    (hfit : k ≤ d + roomAfter 1 (r.body.map fun x => (x.1, none))) :
    (R.set (loopName j) { r with body := r.body ++ [(k - d, i.literal)] }).Tame tags := by
  refine ⟨fun {j' r'} hr' x hx => ?_, fun {name r'} hr' => ?_⟩
  · by_cases hj : loopName j' = loopName j
    · obtain rfl := loopName_injective hj
      rw [set_self] at hr'
      cases hr'
      rcases mem_append.mp hx with hx | hx
      · obtain ⟨hone, y, hy, hready⟩ := hT.ready hr x hx
        exact ⟨hone, y, hy, hready.mono (Nat.le_refl _) isSome_set⟩
      · obtain rfl := mem_singleton.mp hx
        exact ⟨by change 1 ≤ k - d; omega, i, rfl, hi.mono (Nat.le_refl _) isSome_set⟩
    · rw [set_ne hj] at hr'
      obtain ⟨hone, y, hy, hready⟩ := hT.ready hr' x hx
      exact ⟨hone, y, hy, hready.mono (Nat.le_refl _) isSome_set⟩
  · by_cases hname : name = loopName j
    · rw [hname, set_self] at hr'
      cases hr'
      rw [map_append, climbs_append]
      exact ⟨hT.climbs hr, by change k - d ≤ _; omega, trivial⟩
    · rw [set_ne hname] at hr'
      exact hT.climbs hr'

theorem climbs_inlined (hdepths : ∀ x ∈ r.body, 1 ≤ x.1) (h : Climbs n (r.body.map fun x => (x.1, none))) :
    Climbs (k + n - 1) ((r.inlined k arguments).map fun x => (x.1, none)) := by
  rw [Routine.inlined, map_map]
  generalize r.body = body at hdepths h
  induction body generalizing n with
  | nil => trivial
  | cons x body ih =>
    have hx := hdepths x mem_cons_self
    have hrest := ih (forall_mem_cons.mp hdepths).2 h.2
    have hn : x.1 ≤ n := h.1
    have hroom : k + (x.1 + 1) - 1 = k + x.1 - 1 + 1 := by omega
    rw [hroom] at hrest
    exact ⟨by change k + x.1 - 1 ≤ _; omega, hrest⟩

theorem carried_markup {m : Markup Text} (h : R.Ready tags lo (.markup m)) :
    Carried tags k [(k, .markup m)] := by
  refine ⟨?_, ?_, ?_, ⟨Nat.le_refl k, trivial⟩, cons_ne_nil _ _⟩
  · simp
  · simpa using h.unreserved
  · simpa using h.checked

theorem Carried.call {parts : List (Items)}
    (hdepths : ∀ x ∈ r.body, 1 ≤ x.1) (hc : Climbs 1 (r.body.map fun x => (x.1, none)))
    (hparts : Forall₂ (fun x part => Carried tags x.1 part) (r.inlined k arguments) parts)
    {name : Text} {colon : Bool} (hun : isUnreserved (call name (some arguments) colon).written) :
    Carried tags k ((k, .call name (some arguments) colon) :: parts.flatten) := by
  have hpart : ∀ y ∈ parts.flatten, ∃ x ∈ r.body, ∃ part, Carried tags (k + x.1 - 1) part ∧ y ∈ part := by
    intro y hy
    obtain ⟨part, hpart, hy⟩ := mem_flatten.mp hy
    obtain ⟨x, hx, hcarried⟩ := exists_of_forall₂ hparts hpart
    obtain ⟨z, hz, rfl⟩ := mem_map.mp hx
    exact ⟨z, hz, part, hcarried, hy⟩
  refine ⟨fun y hy => ?_, fun y hy => ?_, fun y hy m hm => ?_, ⟨Nat.le_refl k, ?_⟩, cons_ne_nil _ _⟩
  · rcases mem_cons.mp hy with rfl | hy
    · exact Nat.le_refl k
    · obtain ⟨x, hx, part, hcarried, hy⟩ := hpart y hy
      have hle := hcarried.depths y hy
      have hone := hdepths x hx
      omega
  · rcases mem_cons.mp hy with rfl | hy
    · exact hun
    · obtain ⟨_, _, part, hcarried, hy⟩ := hpart y hy
      exact hcarried.unreserved y hy
  · rcases mem_cons.mp hy with rfl | hy
    · cases hm
    · obtain ⟨_, _, part, hcarried, hy⟩ := hpart y hy
      exact hcarried.checked y hy m hm
  · exact (climbs_flatten hparts (climbs_inlined hdepths hc)).mono (Nat.le_succ k)

/-- Every line that can be carried out comes to lines that the page takes. -/
theorem Tame.comes (hT : R.Tame tags) (hR : R.AreLoops started) (hn : started.length ≤ lo + n)
    (hi : R.Ready tags lo i) : ∃ lines, R.Comes n (k, i) lines ∧ Carried tags k lines := by
  induction n generalizing lo k i with
  | zero =>
    cases i with
    | markup m => exact ⟨_, rfl, carried_markup hi⟩
    | call name arguments colon =>
      obtain ⟨_, j, hj, rfl, hsome⟩ := hi.calls name arguments colon rfl
      obtain ⟨r, hr⟩ := Option.isSome_iff_exists.mp hsome
      obtain ⟨i, v, hname, hget, _⟩ := hR.routine hr
      obtain rfl := loopName_injective hname
      have hlt := (List.getElem?_eq_some_iff.mp hget).1
      omega
  | succ n ih =>
    cases i with
    | markup m => exact ⟨_, rfl, carried_markup hi⟩
    | call name arguments colon =>
      obtain ⟨hlength, j, hj, rfl, hsome⟩ := hi.calls name arguments colon rfl
      obtain ⟨r, hr⟩ := Option.isSome_iff_exists.mp hsome
      obtain ⟨arguments, rfl⟩ : ∃ ws, arguments = some ws := by
        cases arguments with
        | none => cases hlength
        | some ws => exact ⟨ws, rfl⟩
      have hlines : ∀ x ∈ r.inlined k arguments, ∃ part, R.Comes n x part ∧ Carried tags x.1 part := by
        intro x hx
        obtain ⟨y, hy, rfl⟩ := mem_map.mp hx
        obtain ⟨_, z, hz, hready⟩ := hT.ready hr y hy
        change ∃ lines, R.Comes n (k + y.1 - 1, y.2.map _) lines ∧ _
        rw [hz, fill_literal]
        exact ih (by omega) hready
      obtain ⟨parts, hparts⟩ := exists_forall₂ hlines
      refine ⟨_, ⟨r, parts, hr, hparts.imp fun _ _ h => h.1, rfl⟩, ?_⟩
      exact Carried.call (fun x hx => (hT.ready hr x hx).1) (hT.climbs hr)
        (hparts.imp fun _ _ h => h.2) hi.unreserved

end Routines

/-! ## Pages out of balance -/

namespace Page
variable {tags : TagTable} {unit : Text} {p : Page} {surplus : Int}

def Exceeds (surplus : Int) (p : Page) : Prop := (p.elements.length : Int) = p.room + surplus

theorem Exceeds.enter (hs : p.Exceeds surplus) (tags : TagTable) (unit : Text) (hp : p.Regular) {k : Nat} (hk : k ≤ p.room)
    (entry : Option Text) :
    if 0 ≤ k + surplus then ∃ q, p.enter tags unit k entry = .ok q ∧ q.Exceeds surplus
    else p.enter tags unit k entry = .error .outOfRange := by
  rw [Exceeds] at hs
  rw [enter_eq hp hk]
  split
  · rw [if_pos (by omega)]
    refine ⟨_, rfl, ?_⟩
    rw [Exceeds, room_push, push_elements, length_cons, pops_elements, length_drop]
    omega
  · rw [if_neg (by omega)]

theorem Exceeds.step (hs : p.Exceeds surplus) (unit : Text) (hp : p.Regular) {x : Nat × Option (Markup Text)}
    (hx : x.1 ≤ p.room) (hcheck : ∀ m ∈ x.2, m.check tags = .ok ()) :
    if 0 ≤ x.1 + surplus then ∃ q, p.step tags unit x = .ok q ∧ q.Exceeds surplus
    else p.step tags unit x = .error .outOfRange := by
  obtain ⟨k, _ | m⟩ := x
  · exact hs.enter tags unit hp hx none
  · have henter := hs.enter tags unit hp hx (m.ending (unit.times k))
    have hput : p.step tags unit (k, some m) =
        p.enter tags unit k (m.ending (unit.times k)) >>= fun q => .ok (q.write unit k m) := by
      change p.put tags unit k m = _
      rw [put, hcheck m rfl]
      rfl
    rw [hput]
    split at henter
    · rename_i hk
      obtain ⟨q, hq, hs⟩ := henter
      rw [if_pos hk, hq]
      exact ⟨_, rfl, hs⟩
    · rename_i hk
      rw [if_neg hk, henter]
      rfl

/-- Steps keep the surplus, unless one of them has too few entries to close. -/
theorem Exceeds.follow (hs : p.Exceeds surplus) (unit : Text) (hp : p.Regular) {t : Trace} (hc : t.Climbs p.room)
    (hcheck : ∀ x ∈ t, ∀ m ∈ x.2, m.check tags = .ok ()) :
    if ∀ x ∈ t, 0 ≤ x.1 + surplus then ∃ q, p.follow tags unit t = .ok q ∧ q.Exceeds surplus
    else p.follow tags unit t = .error .outOfRange := by
  induction t generalizing p with
  | nil =>
    rw [if_pos (by simp)]
    exact ⟨p, rfl, hs⟩
  | cons x t ih =>
    have hstep := hs.step unit hp hc.1 (hcheck x mem_cons_self)
    simp only [forall_mem_cons]
    split at hstep
    · rename_i hx
      obtain ⟨q, hq, hs⟩ := hstep
      obtain ⟨hregular, hroom⟩ := step_ok hq
      have hrest := ih hs hregular (hroom ▸ hc.2) (forall_mem_cons.mp hcheck).2
      have hfollow : p.follow tags unit (x :: t) = q.follow tags unit t := by
        rw [follow, hq]
        rfl
      simpa only [hx, true_and, hfollow] using hrest
    · rename_i hx
      rw [if_neg fun h => hx h.1, follow, hstep]
      rfl

end Page

/-! ## Handing lines on -/

def OpenLoop.room (L : OpenLoop) : Nat :=
  L.depth + Trace.roomAfter 1 (L.body.map fun x => (x.1, none))

/-- Loops are open, and each of them has been met where the body of the next one goes on. -/
structure Nested (tags : TagTable) (u : Text) (R : Routines) (started : List Text)
    (stack : List OpenLoop) (s : Session) : Prop where
  collecting : Collecting tags u R started stack s
  tame : R.Tame tags
  chain : stack.IsChain fun L M => L.depth ≤ M.room

/-- The room of the page once all loops have ended. -/
def ground (depths : List Nat) (p : Page) : Nat :=
  match depths.getLast? with
  | some d => d + 1
  | none => p.room

theorem ground_cons_cons (d e : Nat) (depths : List Nat) (p q : Page) :
    ground (d :: e :: depths) p = ground (e :: depths) q := by
  obtain ⟨l, hl⟩ := Option.isSome_iff_exists.mp (getLast?_isSome.mpr (cons_ne_nil e depths))
  rw [ground, ground, getLast?_cons_cons, hl]

theorem ground_dropWhile {depths : List Nat} {p : Nat → Bool} (h : depths.dropWhile p ≠ []) (q q' : Page) :
    ground (depths.dropWhile p) q = ground depths q' := by
  obtain ⟨l, hl⟩ := Option.isSome_iff_exists.mp (getLast?_isSome.mpr h)
  have hlast : depths.getLast? = some l := by
    rw [← takeWhile_append_dropWhile (p := p) (l := depths), getLast?_append_of_ne_nil _ h, hl]
  rw [ground, ground, hl, hlast]

/-- What becomes of a line while loops are open: it is kept with one of them, or it ends all of them
and is carried out, or the page has too few entries. -/
inductive Fed (tags : TagTable) (u : Text) (started : List Text) (surplus : Int) (lo : Nat)
    (R : Routines) (stack : List OpenLoop) (s : Session) (x : Nat × Item Text) :
    Except Fault Unit × Session → Prop
  | kept {s' : Session} {R' : Routines} {stack' : List OpenLoop}
      (inside : ∃ L ∈ stack, L.depth < x.1) (nest : Nested tags u R' started stack' s')
      (depths : stack'.map (·.depth) = (stack.map (·.depth)).dropWhile (x.1 ≤ ·))
      (room : ∀ L ∈ stack'.head?, L.room = x.1 + 1) (below : ∀ L ∈ stack', L.index < lo)
      (page : s'.page = s.page.atLevel x.1)
      (some : ∀ {a}, (R a).isSome = true → (R' a).isSome = true) (unit : s.KeepsUnit u s') :
      Fed tags u started surplus lo R stack s x (.ok (), s')
  | ran {s' : Session} {R' : Routines} (outside : ∀ L ∈ stack, x.1 ≤ L.depth)
      (enough : 0 ≤ x.1 + surplus) (nest : Nested tags u R' started [] s')
      (page : s'.page.Exceeds surplus) (room : x.1 < s'.page.room)
      (markup : ∀ m, x.2 = .markup m → s'.page.room = x.1 + 1)
      (some : ∀ {a}, (R a).isSome = true → (R' a).isSome = true) (unit : s.KeepsUnit u s') :
      Fed tags u started surplus lo R stack s x (.ok (), s')
  | failed {s' : Session} (outside : ∀ L ∈ stack, x.1 ≤ L.depth) (few : x.1 + surplus < 0) :
      Fed tags u started surplus lo R stack s x (.error .outOfRange, s')

namespace Nested
variable {tags : TagTable} {u e : Text} {started : List Text} {surplus : Int} {lo N : Nat} {R : Routines}
  {stack : List OpenLoop} {L : OpenLoop} {s : Session} {x : Nat × Item Text}

theorem fed_nil (h : Nested tags u R started [] s) (hu : isUnit u) (hx : R.Ready tags lo x.2)
    (hroom : x.1 ≤ s.page.room) (hs : s.page.Exceeds surplus) (hN : started.length ≤ N) (he : LineEnd e) :
    Fed tags u started surplus lo R [] s x ((lineTo (N + 1) (sourceLine u x.1 x.2.written e)).runFrom s) := by
  have hR := h.collecting.areLoops
  have hidle := h.collecting.idle_of_nil
  obtain ⟨lines, hcomes, hcarried⟩ := h.tame.comes (k := x.1) hR (hN.trans (Nat.le_add_left N lo)) hx
  have hclimbs := hcarried.climbs.mono hroom
  have hdoes := hR.does hu hcomes ⟨hx.shaped, hx.admits hR⟩ hcarried.unreserved
    (Nat.le_refl N) (readAs_written hx.shaped hx.unreserved) he s hidle h.collecting.stored
    (.inr hclimbs)
  have hpage := hs.follow u hidle.regular hclimbs hcarried.trace_checked
  have hfirst : ∃ y ∈ trace lines, y.1 = x.1 := by
    obtain ⟨rest, rfl⟩ := head?_eq_some_iff.mp hcomes.head?
    exact ⟨_, mem_cons_self, rfl⟩
  by_cases hk : 0 ≤ x.1 + surplus
  · rw [if_pos fun y hy => by have := hcarried.trace_depths y hy; omega] at hpage
    obtain ⟨q, hq, hexceeds⟩ := hpage
    obtain ⟨s', hrun, rfl, hi, hstored, hunit⟩ := hdoes.of_ok hq
    rw [hrun]
    have hroom' := follow_room hq
    refine .ran (by simp) hk ⟨Collecting.nil_iff.mpr ⟨hi, hR, hstored⟩, h.tame, .nil⟩ hexceeds ?_ ?_ id
      hunit
    · rw [hroom']
      exact hcarried.lt_roomAfter _
    · intro m hm
      obtain ⟨k, i⟩ := x
      subst hm
      have hlines : lines = [(k, .markup m)] := by
        cases N <;> exact hcomes
      rw [hroom', hlines]
      rfl
  · have hfails : ¬ ∀ y ∈ trace lines, 0 ≤ (y.1 : Int) + surplus := by
      intro hall
      obtain ⟨y, hy, hyx⟩ := hfirst
      have := hall y hy
      omega
    rw [if_neg hfails] at hpage
    rw [hpage] at hdoes
    rcases hrun : (lineTo (N + 1) (sourceLine u x.1 x.2.written e)).runFrom s with ⟨r, s'⟩
    have hr : ((lineTo (N + 1) (sourceLine u x.1 x.2.written e)).runFrom s).1 = .error .outOfRange := hdoes
    rw [hrun] at hr
    obtain rfl : r = .error .outOfRange := hr
    exact .failed (by simp) (by omega)

theorem fed_record (h : Nested tags u R started (L :: stack) s) (hu : isUnit u)
    (hx : R.Ready tags lo x.2) (hlo : ∀ M ∈ L :: stack, M.index < lo) (hk : L.depth < x.1)
    (hfit : x.1 ≤ L.room) (hreads : s.Reads u x.1) (he : LineEnd e) :
    Fed tags u started surplus lo R (L :: stack) s x
      ((lineTo (N + 1) (sourceLine u x.1 x.2.written e)).runFrom s) := by
  obtain ⟨k, i⟩ := x
  have hL := h.collecting.opened L mem_cons_self
  have hsuits := hx.suits (v := L.iterator) (hlo L mem_cons_self) hk
  obtain ⟨s', hrun, hpage, hunit, hs'⟩ := h.collecting.record (lineTo N) hsuits hu he hk hreads
  rw [source_literal] at hrun
  have hline : (lineTo (N + 1) (sourceLine u k i.written e)).runFrom s = (.ok (), s') := hrun
  change Fed _ _ _ _ _ _ _ _ _ ((lineTo (N + 1) (sourceLine u k i.written e)).runFrom s)
  rw [hline]
  refine .kept ⟨L, mem_cons_self, hk⟩ ⟨hs', ?_, ?_⟩ ?_ ?_ ?_ hpage Routines.isSome_set hunit
  · exact h.tame.record hL (hx.mono (hlo L mem_cons_self) id) hk hfit
  · cases stack with
    | nil => exact .singleton _
    | cons M stack => exact .cons_cons (isChain_cons_cons.mp h.chain).1 (isChain_cons_cons.mp h.chain).2
  · have hnot : decide (k ≤ L.depth) = false := by simpa using hk
    rw [map_cons, map_cons, dropWhile_cons, hnot]
    rfl
  · intro M hM
    cases hM
    rw [OpenLoop.room, OpenLoop.record, map_append, Trace.roomAfter_append]
    change L.depth + (k - L.depth + 1) = k + 1
    omega
  · intro M hM
    rcases mem_cons.mp hM with rfl | hM
    · exact hlo L mem_cons_self
    · exact hlo M (.tail _ hM)

end Nested

theorem dropWhile_dropWhile_of_imp {α : Type} {p q : α → Bool} (h : ∀ a, p a → q a)
    (l : List α) : (l.dropWhile p).dropWhile q = l.dropWhile q := by
  induction l with
  | nil => rfl
  | cons a l ih =>
    cases hp : p a with
    | false => rw [dropWhile_cons, hp]; rfl
    | true => rw [dropWhile_cons, hp, dropWhile_cons, h a hp]; exact ih

theorem mem_dropWhile {α : Type} {p : α → Bool} {a : α} {l : List α} (h : a ∈ l) (hp : p a = false) :
    a ∈ l.dropWhile p := by
  rw [← takeWhile_append_dropWhile (p := p) (l := l), mem_append] at h
  refine h.resolve_left fun ht => ?_
  rw [mem_takeWhile_imp ht] at hp
  cases hp

namespace Fed
variable {tags : TagTable} {u : Text} {started : List Text} {surplus : Int} {lo lo' : Nat}
  {R R' : Routines} {stack : List OpenLoop} {L : OpenLoop} {s s' : Session} {x y : Nat × Item Text}
  {r : Except Fault Unit × Session}

theorem handed_on (h : Fed tags u started surplus lo' R stack s' x r) (hlo : lo' ≤ lo)
    (hk : x.1 ≤ L.depth) (hpage : s'.page = s.page.atLevel L.depth) (hunit : s.KeepsUnit u s') :
    Fed tags u started surplus lo R (L :: stack) s x r := by
  have houtside : (∀ M ∈ stack, x.1 ≤ M.depth) → ∀ M ∈ L :: stack, x.1 ≤ M.depth :=
    fun h => forall_mem_cons.mpr ⟨hk, h⟩
  cases h with
  | kept inside nest depths room below page some unit =>
    obtain ⟨M, hM, hlt⟩ := inside
    refine .kept ⟨M, .tail _ hM, hlt⟩ nest ?_ room (fun M hM => (below M hM).trans_le hlo)
      ?_ some (unit ∘ hunit)
    · rw [map_cons, dropWhile_cons, if_pos (by simpa using hk), depths]
    · rw [page, hpage, atLevel_atLevel]
  | ran outside enough nest page room markup some unit =>
    exact .ran (houtside outside) enough nest page room markup some (unit ∘ hunit)
  | failed outside few => exact .failed (houtside outside) few

theorem after_kept {stack' : List OpenLoop}
    (h : Fed tags u started surplus lo R' stack' s' y r) (hle : y.1 ≤ x.1)
    (hdepths : stack'.map (·.depth) = (stack.map (·.depth)).dropWhile (x.1 ≤ ·))
    (hpage : s'.page = s.page.atLevel x.1)
    (hsome : ∀ {a}, (R a).isSome → (R' a).isSome) (hunit : s.KeepsUnit u s') :
    Fed tags u started surplus lo R stack s y r := by
  have hmem : ∀ {d}, d ∈ stack'.map (·.depth) → d ∈ stack.map (·.depth) := by
    intro d hd
    rw [hdepths] at hd
    exact (dropWhile_suffix _).subset hd
  have houtside : (∀ L ∈ stack', y.1 ≤ L.depth) → ∀ L ∈ stack, y.1 ≤ L.depth := by
    intro houtside L hL
    by_cases hx : x.1 ≤ L.depth
    · exact hle.trans hx
    · have hL' := mem_dropWhile (p := (x.1 ≤ ·)) (mem_map_of_mem (f := (·.depth)) hL) (by simpa using hx)
      rw [← hdepths] at hL'
      obtain ⟨M, hM, hd⟩ := mem_map.mp hL'
      exact hd ▸ houtside M hM
  cases h with
  | kept inside nest depths room below page some unit =>
    obtain ⟨M, hM, hlt⟩ := inside
    obtain ⟨L, hL, hd⟩ := mem_map.mp (hmem (mem_map_of_mem hM))
    refine .kept ⟨L, hL, by rw [hd]; exact hlt⟩ nest ?_ room below ?_ (fun h => some (hsome h))
      (unit ∘ hunit)
    · rw [depths, hdepths, dropWhile_dropWhile_of_imp]
      intro d hd
      have hd' : x.1 ≤ d := by simpa using hd
      simpa using hle.trans hd'
    · rw [page, hpage, atLevel_atLevel]
  | ran outside enough nest page room markup some unit =>
    exact .ran (houtside outside) enough nest page room markup (fun h => some (hsome h)) (unit ∘ hunit)
  | failed outside few => exact .failed (houtside outside) few

theorem after_ran (h : Fed tags u started surplus lo R' [] s' y r) (houtside : ∀ L ∈ stack, y.1 ≤ L.depth)
    (hsome : ∀ {a}, (R a).isSome → (R' a).isSome) (hunit : s.KeepsUnit u s') :
    Fed tags u started surplus lo R stack s y r := by
  cases h with
  | kept inside =>
    obtain ⟨M, hM, _⟩ := inside
    cases hM
  | ran _ enough nest page room markup some unit =>
    exact .ran houtside enough nest page room markup (fun h => some (hsome h)) (unit ∘ hunit)
  | failed _ few => exact .failed houtside few

end Fed

/-- An action that handles a line, once the unit of indentation is known. -/
def Handles (u : Text) (N : Nat) (x : Nat × Item Text) (a : Compile Unit) : Prop :=
  ∃ e, LineEnd e ∧ ∀ s : Session, s.defining = none → (s.indentation.unit = some u ∨ x.1 = 0) →
    a.runFrom s = (Compile.lineTo (N + 1) (sourceLine u x.1 x.2.written e)).runFrom s

/-- Lines to be handed to the open loops, none of them deeper than the one before. -/
structure Queued (tags : TagTable) (u : Text) (started : List Text) (surplus : Int) (lo N : Nat)
    (R : Routines) (stack : List OpenLoop) (s : Session) (xs : List (Nat × Item Text)) : Prop where
  nested : Nested tags u R started stack s
  ready : ∀ x ∈ xs, R.Ready tags lo x.2
  below : ∀ L ∈ stack, L.index < lo
  fuel : stack.length + started.length ≤ N
  falls : xs.IsChain fun x y => y.1 ≤ x.1
  fits : ∀ x ∈ xs.head?, ∀ L ∈ stack.head?, x.1 ≤ L.room
  room : stack = [] → ∀ x ∈ xs.head?, x.1 ≤ s.page.room
  unit : s.indentation.unit = some u ∨ ∀ x ∈ xs, x.1 = 0
  entries : (s.page.elements.length : Int) = ground (stack.map (·.depth)) s.page + surplus

namespace Queued
variable {tags : TagTable} {u : Text} {started : List Text} {surplus : Int} {lo N : Nat} {R R' : Routines}
  {stack stack' : List OpenLoop} {L : OpenLoop} {s s' : Session} {x y : Nat × Item Text}
  {xs : Items}

theorem kept (h : Queued tags u started surplus lo N R stack s (x :: xs))
    (hinside : ∃ L ∈ stack, L.depth < x.1) (hnested : Nested tags u R' started stack' s')
    (hdepths : stack'.map (·.depth) = (stack.map (·.depth)).dropWhile (x.1 ≤ ·))
    (hroom : ∀ L ∈ stack'.head?, L.room = x.1 + 1) (hbelow : ∀ L ∈ stack', L.index < lo)
    (hpage : s'.page = s.page.atLevel x.1)
    (hsome : ∀ {a}, (R a).isSome → (R' a).isSome) (hunit : s.KeepsUnit u s') :
    Queued tags u started surplus lo N R' stack' s' xs := by
  have hne : (stack.map (·.depth)).dropWhile (x.1 ≤ ·) ≠ [] := by
    obtain ⟨L, hL, hlt⟩ := hinside
    intro hnil
    have hall := dropWhile_eq_nil_iff.mp hnil L.depth (mem_map_of_mem hL)
    simp only [decide_eq_true_eq] at hall
    omega
  have hlength : stack'.length ≤ stack.length := by
    have hsuffix := (dropWhile_suffix (p := (x.1 ≤ ·)) (l := stack.map (·.depth))).length_le
    rwa [← hdepths, length_map, length_map] at hsuffix
  have hfuel := h.fuel
  have hfalls : ∀ y ∈ xs.head?, y.1 ≤ x.1 := fun y hy => h.falls.rel_head? hy
  refine ⟨hnested, fun y hy => (h.ready y (.tail _ hy)).mono (Nat.le_refl lo) hsome,
    hbelow, by omega, h.falls.tail, fun y hy M hM => ?_, fun hnil => ?_, ?_, ?_⟩
  · rw [hroom M hM]
    exact (hfalls y hy).trans (Nat.le_succ _)
  · rw [hnil] at hdepths
    exact absurd hdepths.symm hne
  · exact h.unit.imp (fun h => hunit h) fun hzero y hy => hzero y (.tail _ hy)
  · rw [hdepths, ground_dropWhile hne s'.page s.page, hpage]
    exact h.entries

theorem ran (h : Queued tags u started surplus lo N R stack s (x :: xs))
    (hnested : Nested tags u R' started [] s') (hpage : s'.page.Exceeds surplus)
    (hroom : x.1 < s'.page.room) (hsome : ∀ {a}, (R a).isSome → (R' a).isSome)
    (hunit : s.KeepsUnit u s') : Queued tags u started surplus lo N R' [] s' xs := by
  have hfuel := h.fuel
  have hfalls : ∀ y ∈ xs.head?, y.1 ≤ x.1 := fun y hy => h.falls.rel_head? hy
  refine ⟨hnested, fun y hy => (h.ready y (.tail _ hy)).mono (Nat.le_refl lo) hsome,
    by simp, by simp only [length_nil]; omega, h.falls.tail, by simp,
    fun _ y hy => (hfalls y hy).trans hroom.le, ?_, hpage⟩
  exact h.unit.imp (fun h => hunit h) fun hzero y hy => hzero y (.tail _ hy)

theorem popped (h : Nested tags u R started (L :: stack) s) (hx : R.Ready tags lo x.2)
    (hlo : L.index < lo) (hN : (L :: stack).length + started.length ≤ N + 1) (hk : x.1 ≤ L.depth)
    (hs : (s.page.elements.length : Int) = ground ((L :: stack).map (·.depth)) s.page + surplus) :
    Queued tags u started surplus L.index N R stack ((s.learn u x.1).popLoop L.depth (stack.map loop))
      (L.items.map (fun w => (L.depth, L.call w)) ++ [x]) := by
  have hdepths : ∀ y ∈ L.items.map (fun w => (L.depth, L.call w)) ++ [x], y.1 ≤ L.depth := by
    intro y hy
    rcases mem_append.mp hy with hy | hy
    · obtain ⟨w, _, rfl⟩ := mem_map.mp hy
      exact Nat.le_refl _
    · rw [mem_singleton.mp hy]
      exact hk
  have hfresh := h.collecting.entered (cons_ne_nil _ _)
  have horder := pairwise_cons.mp h.collecting.order
  constructor
  case nested => exact ⟨h.collecting.popped x.1, h.tame, h.chain.tail⟩
  case ready =>
    intro y hy
    rcases mem_append.mp hy with hy | hy
    · obtain ⟨w, hw, rfl⟩ := mem_map.mp hy
      obtain ⟨hword, hun⟩ := h.collecting.items L mem_cons_self w hw
      refine ⟨L.isPlain_call hword, L.isUnreserved_call hun, fun m hm => (by cases hm), ?_⟩
      rintro name arguments colon heq
      cases heq
      refine ⟨rfl, L.index, Nat.le_refl _, rfl, ?_⟩
      rw [h.collecting.opened L mem_cons_self]
      rfl
    · rw [mem_singleton.mp hy]
      exact hx.mono hlo.le id
  case below => exact fun M hM => horder.1 M.index (mem_map_of_mem hM)
  case fuel =>
    rw [length_cons] at hN
    omega
  case falls =>
    generalize L.items = items
    induction items with
    | nil => exact .singleton _
    | cons w items ih =>
      cases items with
      | nil => exact .cons_cons hk ih
      | cons w' items => exact .cons_cons (Nat.le_refl _) ih
  case fits =>
    intro y hy M hM
    have hy := hdepths y (mem_of_mem_head? hy)
    obtain ⟨rest, rfl⟩ := head?_eq_some_iff.mp hM
    exact hy.trans (isChain_cons_cons.mp h.chain).1
  case room =>
    intro _ y hy
    have hy := hdepths y (mem_of_mem_head? hy)
    rw [h.collecting.room_popped]
    omega
  case unit =>
    refine h.collecting.unit.imp Session.keepsUnit_learn fun hzero y hy => ?_
    have hy := hdepths y hy
    rw [hzero L mem_cons_self] at hy
    omega
  case entries =>
    cases stack with
    | nil =>
      change _ = ((((s.learn u x.1).popLoop L.depth (map loop [])).page.room : Nat) : Int) + _
      rw [h.collecting.room_popped]
      exact hs
    | cons M stack =>
      rw [map_cons, map_cons, ground_cons_cons] at hs
      exact hs

theorem forM_calls {α : Type} (as : List α) (f : α → Compile Unit) (a : Compile Unit) (s : Session) :
    ((as.map f ++ [a]).forM id).runFrom s = (do as.forM f; a).runFrom s := by
  induction as generalizing s with
  | nil =>
    rw [map_nil, nil_append, runFrom_forM_cons, runFrom_bind]
    rcases hr : a.runFrom s with ⟨r, t⟩
    cases r <;> simp [hr]
  | cons b as ih =>
    rw [map_cons, cons_append, runFrom_forM_cons, runFrom_bind, runFrom_forM_cons]
    rcases hr : (f b).runFrom s with ⟨r, t⟩
    cases r with
    | error f => simp [hr]
    | ok _ =>
      have hrest := ih t
      rw [runFrom_bind] at hrest
      simpa [hr] using hrest

end Queued

theorem Nested.fed_popped {tags : TagTable} {u e : Text} {started : List Text} {surplus : Int} {lo N : Nat}
    {R : Routines} {stack : List OpenLoop} {L : OpenLoop} {s : Session} {x : Nat × Item Text}
    (h : Nested tags u R started (L :: stack) s) (hu : isUnit u) (hx : R.Ready tags lo x.2)
    (hlo : L.index < lo) (hk : x.1 ≤ L.depth) (he : LineEnd e)
    (hrest : ∀ as, Forall₂ (Handles u N) (L.items.map (fun w => (L.depth, L.call w)) ++ [x]) as →
      Fed tags u started surplus L.index R stack ((s.learn u x.1).popLoop L.depth (stack.map loop)) x
        ((as.forM id).runFrom ((s.learn u x.1).popLoop L.depth (stack.map loop)))) :
    Fed tags u started surplus lo R (L :: stack) s x
      ((lineTo (N + 2) (sourceLine u x.1 x.2.written e)).runFrom s) := by
  have hcalm := ReadAs.calm (readAs_written hx.shaped hx.unreserved)
  have hrun := line_ends_loop (lineTo (N + 1)) hcalm hu he h.collecting.loops h.collecting.idle
    (h.collecting.reads hk) hk
  have hacts : Forall₂ (Handles u N) (L.items.map (fun w => (L.depth, L.call w)) ++ [x])
      (L.items.map (loopCall (lineTo (N + 1)) L.loop) ++
        [lineTo (N + 1) (sourceLine u x.1 x.2.written e)]) := by
    refine rel_append ?_ (.cons ⟨e, he, fun _ _ _ => rfl⟩ .nil)
    rw [forall₂_map_left_iff, forall₂_map_right_iff]
    exact forall₂_same.mpr fun w _ => ⟨[], .inl rfl, fun t hdefining hunit => loopCall_run hdefining hunit⟩
  have hfed := hrest _ hacts
  rw [Queued.forM_calls] at hfed
  change Fed _ _ _ _ _ _ _ _ _ ((line (lineTo (N + 1))
    (sourceLine u x.1 x.2.written e)).runFrom s)
  rw [hrun]
  exact hfed.handed_on hlo.le hk rfl Session.keepsUnit_learn

namespace Queued
variable {tags : TagTable} {u : Text} {started : List Text} {surplus : Int} {lo N : Nat} {R : Routines}
  {stack : List OpenLoop} {s : Session} {x y : Nat × Item Text} {xs : Items}

theorem last_le (h : Queued tags u started surplus lo N R stack s (x :: xs)) (hy : y ∈ xs) : y.1 ≤ x.1 := by
  have hpairwise := isChain_iff_pairwise.mp h.falls
  exact (pairwise_cons.mp hpairwise).1 y hy

theorem fed (h : Queued tags u started surplus lo N R stack s xs) (hu : isUnit u)
    {as : List (Compile Unit)} (has : Forall₂ (Handles u N) xs as) (hy : xs.getLast? = some y) :
    Fed tags u started surplus lo R stack s y ((as.forM id).runFrom s) := by
  obtain ⟨n, hn⟩ : ∃ n, stack.length ≤ n := ⟨_, Nat.le_refl _⟩
  -- A loop that ends hands its calls to fewer loops; the lines after a line meet no more loops.
  induction n using Nat.strong_induction_on generalizing lo N R stack s xs as y with
  | _ n ih =>
  induction has generalizing R stack s with
  | nil => cases hy
  | @cons x a xs as ha has ihxs =>
    obtain ⟨e, he, hact⟩ := ha
    have hcollecting := h.nested.collecting
    have hx := h.ready x mem_cons_self
    have hunit : s.indentation.unit = some u ∨ x.1 = 0 := h.unit.imp id fun hz => hz x mem_cons_self
    have hrun := hact s hcollecting.idle.defining hunit
    have hone : Fed tags u started surplus lo R stack s x (a.runFrom s) := by
      rw [hrun]
      cases stack with
      | nil =>
        have hfuel := h.fuel
        exact h.nested.fed_nil hu hx (h.room rfl x rfl) h.entries (by simpa using hfuel) he
      | cons L stack =>
        by_cases hk : L.depth < x.1
        · refine h.nested.fed_record hu hx h.below hk (h.fits x rfl L rfl) ?_ he
          rcases hunit with hunit | hzero
          · exact .inl hunit
          · exact hcollecting.idle.reads (by omega)
        · have hfuel := h.fuel
          rw [length_cons] at hfuel hn
          obtain ⟨N, rfl⟩ : ∃ N', N = N' + 1 := ⟨N - 1, by omega⟩
          have hlo := h.below L mem_cons_self
          refine h.nested.fed_popped hu hx hlo (by omega) he fun as has => ?_
          have hq := popped h.nested hx hlo (by rw [length_cons]; exact hfuel) (by omega) h.entries
          exact ih stack.length (by omega) hq has (by simp) (Nat.le_refl _)
    rw [runFrom_forM_cons, id_eq]
    generalize a.runFrom s = r at hone
    by_cases hxs : xs = []
    · subst hxs
      cases hy
      cases has
      rcases r with ⟨_ | _, t⟩ <;> exact hone
    · have hlast : xs.getLast? = some y := by
        obtain ⟨z, zs, rfl⟩ := exists_cons_of_ne_nil hxs
        rwa [getLast?_cons_cons] at hy
      have hle := h.last_le (mem_of_mem_getLast? hlast)
      cases hone with
      | kept inside nest depths room below page some unit =>
        have hq := h.kept inside nest depths room below page some unit
        have hlength := congrArg length depths
        have hsuffix := (dropWhile_suffix (p := (x.1 ≤ ·)) (l := stack.map (·.depth))).length_le
        simp only [length_map] at hlength hsuffix
        exact (ihxs hq hlast (by omega)).after_kept hle depths page some unit
      | ran outside enough nest page room markup some unit =>
        have hq := h.ran nest page room some unit
        exact (ihxs hq hlast (Nat.zero_le n)).after_ran (fun L hL => hle.trans (outside L hL)) some unit
      | failed outside few => exact .failed (fun L hL => hle.trans (outside L hL)) (by omega)

end Queued
end OutlineMarkup
