import OutlineMarkup.Proofs.Forests

/-!
# Rewound pages

The header of a definition takes the level of a page back to zero and leaves the elements open. What
is placed after that closes one entry of the elements, and the rest of them stay below until the end
of the document. The module says what is written then.
-/

namespace OutlineMarkup
open List Markup Outline Option Forest Printing
variable {o : Outline} {u : Text}

def Markup.isNormal (tags : TagTable) : Markup Text → Bool
  | element name _ _ => (tags.rule? name).any (·.closing == .normal)
  | text _ => false

theorem Markup.isNormal_of_isSingle {tags : TagTable} {m : Markup Text} (h : m.isSingle tags) :
    m.isNormal tags = false := by
  cases m with
  | text t => rfl
  | element name attributes colon =>
    obtain ⟨rule, hrule, hsingle⟩ := (any_eq_true _ _).mp h
    rw [beq_iff_eq] at hsingle
    simp [isNormal, hrule, hsingle]

theorem Markup.ending_eq_none {m : Markup Text} {space : Text} (h : m.name? = none) :
    m.ending space = none := by
  cases m with
  | text t => rfl
  | element name attributes colon => cases h

/-- The lines that are open at the end of an outline, innermost first: the last line and those that
it is nested in. -/
def Outline.opened (o : Outline) : Outline :=
  o.foldl (fun open_ x => x :: open_.drop (open_.length - x.1)) []

namespace Page
variable {tags : TagTable} {u : Text} {p q : Page} {extra : List (Option Text)} {m : Markup Text}

/-! ## Entries below -/

/-- The page with more entries below its own. -/
def under (extra : List (Option Text)) (p : Page) : Page := { p with elements := p.elements ++ extra }

theorem pop_under (h : p.elements ≠ []) : (p.under extra).pop tags u = (p.pop tags u).under extra := by
  obtain ⟨level, fresh, elements, written, last⟩ := p
  rcases elements with _ | ⟨_ | tag, rest⟩
  · exact absurd rfl h
  · rfl
  · rfl

theorem pops_under {n : Nat} (h : n ≤ p.elements.length) :
    (pop tags u)^[n] (p.under extra) = ((pop tags u)^[n] p).under extra := by
  induction n generalizing p with
  | zero => rfl
  | succ n ih =>
    have hne : p.elements ≠ [] := ne_nil_of_length_pos (by omega)
    rw [Function.iterate_succ_apply, Function.iterate_succ_apply, pop_under hne, ih]
    rw [pop_elements, length_tail]
    omega

/-- Every level from `n` up to the latest line holds one entry. -/
structure Raised (n : Nat) (p : Page) : Prop extends p.Regular where
  length : p.elements.length + n = p.room

theorem Balanced.raised (hp : p.Balanced) : p.Raised 0 := ⟨hp.toRegular, hp.length⟩

section Raised
variable {n : Nat} {x : Nat × Option (Markup Text)} {t : Trace}

theorem Raised.enter_eq (hp : p.Raised n) {depth : Nat} (hd : depth ≤ p.room) (entry : Option Text) :
    p.enter tags u depth entry = if n ≤ depth then .ok (((pop tags u)^[p.room - depth] p).push depth entry)
      else .error .outOfRange := by
  have hlength := hp.length
  have hiff : p.room - depth ≤ p.elements.length ↔ n ≤ depth := by omega
  rw [Page.enter_eq hp.toRegular hd]
  simp [hiff]

theorem Raised.step (hp : p.Raised n) (hx : x.1 ≤ p.room) (h : p.step tags u x = .ok q) :
    n ≤ x.1 ∧ q.Raised n := by
  have henter : ∀ {entry r}, p.enter tags u x.1 entry = .ok r → n ≤ x.1 ∧ r.Raised n := by
    intro entry r hr
    rw [hp.enter_eq hx] at hr
    split at hr
    · rename_i hn
      cases hr
      refine ⟨hn, regular_push, ?_⟩
      have hlength := hp.length
      simp only [room_push, push_elements, pops_elements, length_cons, length_drop]
      omega
    · cases hr
  obtain ⟨depth, _ | m⟩ := x
  · exact henter h
  · obtain ⟨_, r, hr, rfl⟩ := put_ok h
    obtain ⟨hn, hraised⟩ := henter hr
    exact ⟨hn, hraised.toRegular.write, hraised.length⟩

theorem Raised.of_follow (hp : p.Raised n) (hc : t.Climbs p.room) (h : p.follow tags u t = .ok q) :
    (∀ x ∈ t, n ≤ x.1) ∧ q.Raised n := by
  induction t generalizing p with
  | nil =>
    cases h
    exact ⟨fun x hx => absurd hx not_mem_nil, hp⟩
  | cons x t ih =>
    obtain ⟨r, hstep, hrest⟩ := follow_cons_eq_ok h
    obtain ⟨hn, hr⟩ := hp.step hc.1 hstep
    have hclimbs : Trace.Climbs r.room t := by
      rw [(step_ok hstep).2]
      exact hc.2
    obtain ⟨ht, hq⟩ := ih hr hclimbs hrest
    exact ⟨forall_mem_cons.mpr ⟨hn, ht⟩, hq⟩

theorem Raised.step_under (hp : p.Raised n) (hn : n ≤ x.1) (hx : x.1 ≤ p.room) :
    (p.under extra).step tags u x = (p.step tags u x).map (under extra) := by
  have henter : ∀ entry : Option Text, (p.under extra).enter tags u x.1 entry =
      (p.enter tags u x.1 entry).map (under extra) := by
    intro entry
    have hlength : p.room - x.1 ≤ p.elements.length := by
      have := hp.length
      omega
    have hunder : (p.under extra).Regular := ⟨hp.nonneg, hp.fresh⟩
    have hmore : p.room - x.1 ≤ (p.under extra).elements.length := by
      simp only [under, length_append]
      omega
    rw [hp.enter_eq hx, if_pos hn, Page.enter_eq hunder hx]
    change (if p.room - x.1 ≤ _ then Except.ok (((pop tags u)^[p.room - x.1] _).push x.1 entry)
      else _) = _
    rw [if_pos hmore, pops_under hlength]
    rfl
  obtain ⟨depth, _ | m⟩ := x
  · exact henter none
  · change (p.under extra).put tags u depth m = (p.put tags u depth m).map (under extra)
    rw [put, put]
    cases m.check tags with
    | error f => rfl
    | ok _ =>
      change ((p.under extra).enter tags u depth _ >>= _) = (p.enter tags u depth _ >>= _ : Except _ _).map _
      rw [henter]
      cases p.enter tags u depth (m.ending (u.times depth)) <;> rfl

theorem Raised.follow_under (hp : p.Raised n) (hn : ∀ x ∈ t, n ≤ x.1) (hc : t.Climbs p.room) :
    (p.under extra).follow tags u t = (p.follow tags u t).map (under extra) := by
  induction t generalizing p with
  | nil => rfl
  | cons x t ih =>
    obtain ⟨hx, ht⟩ := forall_mem_cons.mp hn
    rw [follow, follow, hp.step_under hx hc.1]
    cases hq : p.step tags u x with
    | error f => rfl
    | ok q =>
      apply ih (hp.step hc.1 hq).2 ht
      rw [(step_ok hq).2]
      exact hc.2

theorem Balanced.follow_under (hp : p.Balanced) (hc : t.Climbs p.room) :
    (p.under extra).follow tags u t = (p.follow tags u t).map (under extra) :=
  hp.raised.follow_under (fun _ _ => Nat.zero_le _) hc

end Raised

/-! ## What closing writes -/

theorem closed_of_isSingle (tag : Text) (hlast : p.lastElement = m.name?)
    (hm : m.isSingle tags) : p.closed tags u tag = p.written := by
  cases m with
  | text t => cases hm
  | element name attributes colon =>
    obtain ⟨rule, hrule, hsingle⟩ := (any_eq_true _ _).mp hm
    rw [beq_iff_eq] at hsingle
    have hlast' : p.lastElement = some name := hlast
    simp [closed, hlast', hrule, hsingle]

theorem closed_of_isOpen (tag : Text) (hlast : p.lastElement = m.name?)
    (hnormal : m.isNormal tags = false) (hsingle : m.isSingle tags = false) :
    p.closed tags u tag = tag.reverse ++ p.written := by
  cases m with
  | text t =>
    have hlast' : p.lastElement = none := hlast
    simp [closed, hlast']
  | element name attributes colon =>
    have hlast' : p.lastElement = some name := hlast
    simp only [isNormal, isSingle, TagTable.isSingle] at hnormal hsingle
    simp only [closed, hlast', bind_some]
    cases hrule : tags.rule? name with
    | none => rfl
    | some rule =>
      rw [hrule] at hnormal hsingle
      cases hc : rule.closing with
      | normal => simp [hc] at hnormal
      | separate => simp [hc]
      | single => simp [hc] at hsingle

theorem pops_written (hlast : p.lastElement = m.name?)
    (hnormal : m.isNormal tags = false) (n : Nat) : ((pop tags u)^[n] p).written =
      (if m.isSingle tags then [] else (p.elements.take n).flatMap (·.getD [])).reverse ++ p.written := by
  induction n generalizing p with
  | zero => cases m.isSingle tags <;> rfl
  | succ n ih =>
    rw [Function.iterate_succ_apply, ih (by rw [pop_lastElement, hlast])]
    obtain ⟨level, fresh, elements, written, last⟩ := p
    rcases elements with _ | ⟨_ | tag, rest⟩
    · simp [pop]
    · rfl
    · cases hsingle : m.isSingle tags with
      | true =>
        exact closed_of_isSingle (p := ⟨level, fresh, some tag :: rest, written, last⟩) tag hlast hsingle
      | false =>
        have hclosed := closed_of_isOpen (p := ⟨level, fresh, some tag :: rest, written, last⟩)
          (u := u) tag hlast hnormal hsingle
        change (rest.take n |>.flatMap _).reverse ++ closed _ _ _ _ = _
        rw [hclosed]
        simp

theorem pops_written_of_none (h : ∀ e ∈ p.elements, e = none) (n : Nat) :
    ((pop tags u)^[n] p).written = p.written := by
  induction n generalizing p with
  | zero => rfl
  | succ n ih =>
    obtain ⟨level, fresh, elements, written, last⟩ := p
    rw [Function.iterate_succ_apply]
    rcases elements with _ | ⟨e, rest⟩
    · exact ih h
    · obtain rfl : e = none := h e mem_cons_self
      exact ih (forall_mem_cons.mp h).2

theorem written_pop (tags : TagTable) (u : Text) (p : Page) : p.written.drop 2 <:+ (p.pop tags u).written ∧
    p.written.length ≤ (p.pop tags u).written.length := by
  have hadd : ∀ tag : Text, p.written.drop 2 <:+ tag.reverse ++ p.written ∧
      p.written.length ≤ (tag.reverse ++ p.written).length := fun tag =>
    ⟨(drop_suffix 2 _).trans (suffix_append _ _), by simp⟩
  have hclosed : ∀ tag, p.written.drop 2 <:+ p.closed tags u tag ∧
      p.written.length ≤ (p.closed tags u tag).length := by
    intro tag
    unfold closed
    split
    · exact hadd tag
    · split
      · exact ⟨drop_suffix 2 _, Nat.le_refl _⟩
      · exact hadd tag
      · split
        · refine ⟨suffix_append _ _, ?_⟩
          simp
          omega
        · exact hadd tag
  unfold pop
  split
  · exact ⟨drop_suffix 2 _, Nat.le_refl _⟩
  · exact ⟨drop_suffix 2 _, Nat.le_refl _⟩
  · exact hclosed _

theorem written_pops (n : Nat) : p.written.drop 2 <:+ ((pop tags u)^[n] p).written ∧
    p.written.length ≤ ((pop tags u)^[n] p).written.length := by
  induction n generalizing p with
  | zero => exact ⟨drop_suffix 2 _, Nat.le_refl _⟩
  | succ n ih =>
    rw [Function.iterate_succ_apply]
    obtain ⟨hsuffix, hlength⟩ := written_pop tags u p
    obtain ⟨hsuffix', hlength'⟩ := ih (p := p.pop tags u)
    refine ⟨IsSuffix.trans ?_ hsuffix', hlength.trans hlength'⟩
    apply suffix_of_suffix_length_le hsuffix (drop_suffix 2 _)
    simp only [length_drop]
    omega

theorem length_lt_closed {tag : Text} (hlast : p.lastElement = m.name?)
    (hsingle : m.isSingle tags = false) (htag : tag ≠ []) :
    p.written.length < (p.closed tags u tag).length := by
  have hpos := length_pos_of_ne_nil htag
  by_cases hnormal : m.isNormal tags
  · cases m with
    | text t => cases hnormal
    | element name attributes colon =>
      obtain ⟨rule, hrule, hc⟩ := (any_eq_true _ _).mp hnormal
      rw [beq_iff_eq] at hc
      have hlast' : p.lastElement = some name := hlast
      simp only [closed, hlast', bind_some, hrule, hc]
      split
      · simp
        omega
      · simp [hpos]
  · rw [closed_of_isOpen tag hlast (by simpa using hnormal) hsingle]
    simp [hpos]

theorem length_lt_pops (hlast : p.lastElement = m.name?)
    (hsingle : m.isSingle tags = false) (htags : p.elements.flatMap (·.getD []) ≠ []) :
    p.written.length < ((pop tags u)^[p.elements.length] p).written.length := by
  obtain ⟨level, fresh, elements, written, last⟩ := p
  induction elements generalizing written with
  | nil => exact absurd rfl htags
  | cons e rest ih =>
    change _ < ((pop tags u)^[rest.length] _).written.length
    cases e with
    | none => exact ih written hlast htags
    | some tag =>
      by_cases htag : tag = []
      · refine Nat.lt_of_le_of_lt (written_pop _ _ _).2 (ih _ hlast ?_)
        rwa [flatMap_cons, htag] at htags
      · refine Nat.lt_of_lt_of_le ?_ (written_pops _).2
        exact length_lt_closed hlast hsingle htag

/-! ## Going on from level zero -/

def rewind (p : Page) : Page := { p with level := 0 }

/-- What an outline from depth zero on leaves on a rewound page: its own entries close first, then
those that were open below the latest line. -/
theorem Balanced.follow_rewind (hu : isUnit u) (hp : p.Balanced) (hopen : p.elements ≠ [])
    (hw : WellIndented o.depths) (ho : ∀ x ∈ o, x.2.check tags = .ok ()) :
    ∃ d z, p.rewind.follow tags u o.trace = .ok d ∧
      d.output tags u = ((pop tags u)^[z.elements.length] z).written.reverse ∧ z.elements = p.elements.tail ∧
      z.written = (((ofOutline o).printing tags 0).text u).reverse ++ (p.rewind.pop tags u).written ∧
      z.lastElement = match (ofOutline o).last? with
        | none => p.lastElement
        | some l => l.name? := by
  have hfresh : p.fresh = false := by
    have hlength := length_pos_of_ne_nil hopen
    rw [hp.length, room] at hlength
    cases hf : p.fresh with
    | false => rfl
    | true => simp [hf] at hlength
  cases o with
  | nil =>
    refine ⟨p.rewind, p.rewind.pop tags u, rfl, ?_, pop_elements, ?_, ?_⟩
    · obtain ⟨e, rest, hel⟩ := exists_cons_of_ne_nil hopen
      have hlength : p.rewind.elements.length = (p.rewind.pop tags u).elements.length + 1 := by
        rw [pop_elements]
        simp [rewind, hel]
      rw [output, hlength, Function.iterate_succ_apply]
    · rw [ofOutline]
      rfl
    · rw [pop_lastElement, ofOutline]
      rfl
  | cons x o =>
    obtain ⟨k, m⟩ := x
    obtain rfl : k = 0 := hw.2 k rfl
    have hforest := outline_forest hw
    -- The first line closes one entry, and finds a page on which nothing of its own is open.
    let b : Page := ⟨0, true, [], (p.rewind.pop tags u).written, p.lastElement⟩
    have hb : b.Balanced := ⟨⟨Int.le_refl _, fun _ => rfl⟩, rfl⟩
    have hstart : p.rewind.follow tags u (trace ((0, m) :: o)) =
        (b.under p.elements.tail).follow tags u (trace ((0, m) :: o)) := by
      have henter : ∀ entry, p.rewind.enter tags u 0 entry =
          (b.under p.elements.tail).enter tags u 0 entry := by
        intro entry
        have hroom : p.rewind.room = 1 := by simp [room, rewind, hfresh]
        have hone : 1 ≤ p.rewind.elements.length := length_pos_of_ne_nil hopen
        have hpop : p.rewind.pop tags u =
            ⟨0, false, p.elements.tail, (p.rewind.pop tags u).written, p.lastElement⟩ := by
          obtain ⟨level, fresh, _ | ⟨_ | tag, rest⟩, written, last⟩ := p
          · exact absurd rfl hopen
          · cases hfresh
            rfl
          · cases hfresh
            rfl
        rw [Page.enter_eq ⟨Int.le_refl _, fun _ => rfl⟩ (Nat.zero_le _), hroom, if_pos hone,
          Page.enter_eq ⟨Int.le_refl _, fun _ => rfl⟩ (Nat.zero_le _)]
        change Except.ok ((p.rewind.pop tags u).push 0 entry) = _
        rw [hpop]
        rfl
      change (p.rewind.put tags u 0 m >>= _) = ((b.under p.elements.tail).put tags u 0 m >>= _)
      rw [put, put, henter]
    have hchecked : ∀ x ∈ (ofOutline ((0, m) :: o)).outline 0, x.2.check tags = .ok () := by
      rw [hforest]
      exact ho
    obtain ⟨q, hfollow, hq, helements, hwritten, hend⟩ :=
      follow_printing hu (ofOutline ((0, m) :: o)) 0 b hb (Nat.zero_le _) hchecked
    rw [hforest] at hfollow
    refine ⟨q.under p.elements.tail, (q.closeTo tags u 0).under p.elements.tail, ?_, ?_, ?_, ?_, ?_⟩
    · rw [hstart, hb.follow_under (climbs_trace hw), hfollow]
      rfl
    · have hlength : (q.under p.elements.tail).elements.length =
          ((q.closeTo tags u 0).under p.elements.tail).elements.length + q.room := by
        simp [under, closeTo, hq.length, Nat.add_comm]
      rw [output, hlength, Function.iterate_add_apply, pops_under hq.length.ge]
      rfl
    · simp [under, closeTo, hq.length]
    · exact hwritten
    · change (q.closeTo tags u 0).lastElement = _
      rw [closeTo_lastElement]
      cases hlast : (ofOutline ((0, m) :: o)).last? with
      | none => simp [ofOutline, last?] at hlast
      | some l =>
        rw [hlast] at hend
        exact hend.2

end Page

/-! ## The latest line -/

namespace Outline

def entries (u : Text) (o : Outline) : List (Option Text) := o.map fun x => x.2.ending (u.times x.1)

theorem entries_opens (h : ∃ y ∈ o, y.2.name? ≠ none) :
    ∃ k r, (o.entries u).flatMap (·.getD []) = u.times k ++ ("</" ++ r) := by
  induction o with
  | nil =>
    obtain ⟨y, hy, _⟩ := h
    cases hy
  | cons x o ih =>
    obtain ⟨k, m⟩ := x
    cases m with
    | text t =>
      apply ih
      obtain ⟨y, hy, hname⟩ := h
      rcases mem_cons.mp hy with rfl | hy
      · exact absurd rfl hname
      · exact ⟨y, hy, hname⟩
    | element name attributes colon =>
      refine ⟨k, name ++ ">\n" ++ (entries u o).flatMap (·.getD []), ?_⟩
      simp [entries, ending, Definition.tags, definition]

theorem opened_concat (o : Outline) (x : Nat × Markup Text) :
    opened (o ++ [x]) = x :: (opened o).drop ((opened o).length - x.1) := by
  simp [opened, foldl_append]

end Outline

namespace Page
variable {tags : TagTable} {u before : Text} {k : Nat} {m : Markup Text} {outer : List (Option Text)}
  {p q : Page}

/-- The latest line of the page is `m` at depth `k`, nested in lines with the entries `outer`. -/
structure Latest (u : Text) (k : Nat) (m : Markup Text) (outer : List (Option Text)) (before : Text)
    (q : Page) : Prop where
  balanced : q.Balanced
  level : q.level = k
  last : q.lastElement = m.name?
  elements : q.elements = m.ending (u.times k) :: outer
  written : q.written = (u.times k ++ m.opening).reverse ++ before

theorem Balanced.put_latest (hp : p.Balanced) (hk : k ≤ p.room) (h : p.put tags u k m = .ok q) :
    ∃ before, Latest u k m (p.elements.drop (p.room - k)) before q := by
  have hq : q.Balanced := hp.step (x := (k, some m)) hk h
  rw [hp.put_eq _ (put_ok h).1 hk] at h
  cases h
  refine ⟨(p.closeTo tags u k).written, hq, rfl, rfl, ?_, rfl⟩
  change m.ending (u.times k) :: (p.closeTo tags u k).elements = _
  rw [closeTo, pops_elements]

theorem follow_opened (hc : o.trace.Climbs 0) (h : ({} : Page).follow tags u o.trace = .ok q) :
    q.Balanced ∧ q.elements = o.opened.entries u := by
  induction o using reverseRecOn generalizing q with
  | nil =>
    cases h
    exact ⟨⟨⟨Int.le_refl _, fun _ => rfl⟩, rfl⟩, rfl⟩
  | append_singleton o x ih =>
    rw [trace_append, Trace.climbs_append] at hc
    rw [trace_append, follow_append] at h
    cases hp : ({} : Page).follow tags u (trace o) with
    | error f =>
      rw [hp] at h
      cases h
    | ok p =>
      rw [hp] at h
      change (p.put tags u x.1 x.2 >>= pure) = .ok q at h
      rw [bind_pure] at h
      obtain ⟨hb, helements⟩ := ih hc.1 hp
      have hx : x.1 ≤ p.room := by
        rw [follow_room hp]
        exact hc.2.1
      obtain ⟨before, hq⟩ := hb.put_latest hx h
      have hlength : p.room = (opened o).length := by
        rw [← hb.length, helements, entries, length_map]
      refine ⟨hq.balanced, ?_⟩
      rw [hq.elements, opened_concat, helements, hlength]
      simp [entries]

end Page

/-! ## The first line of a printing -/

/-- The first line, without its indentation, is an end tag. -/
def opensWithEndTag (t : Text) : Bool :=
  "</".toList.isPrefixOf (t.dropWhile fun c => c == ' ' || c == '\t')

theorem opensWithEndTag_times (hu : isUnit u) (k : Nat) (r : Text) :
    opensWithEndTag (u.times k ++ r) = opensWithEndTag r := by
  have hblank : ∀ c ∈ u.times k, (c == ' ' || c == '\t') := by
    intro c hc
    rcases ((isUnit_iff u).mp hu).2 c (Text.mem_times hc) with rfl | rfl <;> rfl
  rw [opensWithEndTag, dropWhile_append_of_pos hblank, opensWithEndTag]

theorem opensWithEndTag_endTag (hu : isUnit u) (k : Nat) (r : Text) :
    opensWithEndTag (u.times k ++ ("</" ++ r)) := by
  rw [opensWithEndTag_times hu]
  rfl

theorem opensWithEndTag_text {t : Text} (ht : t.all isPlainChar) (r : Text) :
    opensWithEndTag (t ++ '\n' :: r) = false := by
  induction t with
  | nil => rfl
  | cons c t ih =>
    rw [all_cons, Bool.and_eq_true] at ht
    by_cases hc : (c == ' ' || c == '\t')
    · rw [opensWithEndTag, cons_append, dropWhile_cons, if_pos hc]
      exact ih ht.2
    · have hne : c ≠ '<' := by
        rintro rfl
        exact absurd ht.1 (by decide)
      rw [opensWithEndTag, cons_append, dropWhile_cons, if_neg hc]
      simp [isPrefixOf, hne.symm]

namespace Forest
variable {tags : TagTable} {u : Text} {F : Forest} {l : Markup Text}

theorem last?_ofOutline (o : Outline) : (ofOutline o).last? = o.getLast?.map (·.2) := by
  induction o using ofOutline.induct with
  | case1 => rw [ofOutline]; rfl
  | case2 k m o ihchildren ihrest =>
    have hsplit : o.getLast? = (o.dropWhile (k < ·.1)).getLast?.or (o.takeWhile (k < ·.1)).getLast? := by
      rw [← getLast?_append, takeWhile_append_dropWhile]
    rw [ofOutline, last?, ihchildren, ihrest, getLast?_cons, hsplit]
    cases (o.dropWhile (k < ·.1)).getLast? with
    | some _ => rfl
    | none => cases (o.takeWhile (k < ·.1)).getLast? <;> rfl

theorem two_le_treePrinting (tags : TagTable) (u name : Text) (attributes : Option (List (Text × Text))) (colon : Bool)
    (last : Option (Markup Text)) (inside : Printing) (k : Nat) :
    ∃ r, (treePrinting tags k (.element name attributes colon) last inside).text u =
      u.times k ++ ('<' :: name ++ r) ∧ 2 ≤ r.length := by
  rw [treePrinting]
  split
  · refine ⟨((attributes.getD []).flatMap fun a => ' ' :: attributeText a) ++ " />\n", ?_, by simp⟩
    simp [Printing.text, Mark.written, startTag]
  · refine ⟨((attributes.getD []).flatMap fun a => ' ' :: attributeText a) ++ ">\n" ++
      Printing.text u (inside ++
        if (last.getD (.element name attributes colon)).isSingle tags then [] else [(k, .finish name)]),
      ?_, by simp; omega⟩
    simp [Printing.text, Mark.written, startTag]

theorem last?_text {t : Text} {children rest : Forest} (hl : (node (.text t) children rest).last? = some l)
    (hname : l.name? ≠ none) : rest.last? = some l ∨ children.last? = some l := by
  cases hrest : rest.last? with
  | some l' => exact .inl (by simpa [last?, hrest] using hl)
  | none =>
    cases hchildren : children.last? with
    | none =>
      obtain rfl : .text t = l := by simpa [last?, hrest, hchildren] using hl
      exact absurd rfl hname
    | some l' => exact .inr (by simpa [last?, hrest, hchildren] using hl)

theorem two_le_printing (hl : F.last? = some l)
    (hname : l.name? ≠ none) (k : Nat) : 2 ≤ ((F.printing tags k).text u).length := by
  induction F generalizing k with
  | nil => cases hl
  | node m children rest ihchildren ihrest =>
    rw [printing, text_append, length_append]
    cases m with
    | element name attributes colon =>
      obtain ⟨r, hr, hlength⟩ := two_le_treePrinting tags u name
        attributes colon children.last? (children.printing tags (k + 1)) k
      rw [hr]
      simp
      omega
    | text t =>
      rcases last?_text hl hname with hrest | hchildren
      · exact (ihrest hrest k).trans (Nat.le_add_left _ _)
      · have hinside := ihchildren hchildren (k + 1)
        rw [treePrinting, Printing.text, flatMap_cons, length_append]
        exact (hinside.trans (Nat.le_add_left _ _)).trans (Nat.le_add_right _ _)

theorem printing_head (tags : TagTable) (hu : isUnit u) {k : Nat}
    (hF : ∀ x ∈ F.outline k, x.2.isPlain) (hl : F.last? = some l) :
    ∃ a b, (F.printing tags k).text u = a ++ b ∧ (∀ r, opensWithEndTag (a ++ r) = false) ∧
      (l.name? = none ∨ 2 ≤ b.length) := by
  cases F with
  | nil => cases hl
  | node m children rest =>
    have hm : m.isPlain := hF (k, m) mem_cons_self
    rw [printing, text_append]
    cases m with
    | element name attributes colon =>
      obtain ⟨r, hr, hlength⟩ := two_le_treePrinting tags u name
        attributes colon children.last? (children.printing tags (k + 1)) k
      simp only [Markup.isPlain, Markup.isMadeOf, Bool.and_eq_true] at hm
      obtain ⟨hne, hall⟩ := (isAlphanumeric_iff name).mp hm.1
      obtain ⟨c, name, rfl⟩ := exists_cons_of_ne_nil hne
      have hc : c ≠ '/' := ne_of_class (hall c mem_cons_self) (by decide)
      refine ⟨u.times k ++ ['<', c], name ++ r ++ text u (rest.printing tags k), ?_, fun s => ?_,
        .inr (by simp; omega)⟩
      · rw [hr]
        simp
      · rw [append_assoc, opensWithEndTag_times hu]
        simp [opensWithEndTag, isPrefixOf, hc.symm]
    | text t =>
      refine ⟨u.times k ++ (t ++ ['\n']),
        text u (children.printing tags (k + 1) ++ rest.printing tags k), ?_, fun s => ?_, ?_⟩
      · rw [Printing.text_append]
        simp [treePrinting, Printing.text, Mark.written]
      · rw [append_assoc, append_assoc, opensWithEndTag_times hu]
        exact opensWithEndTag_text hm s
      · by_cases hname : l.name? = none
        · exact .inl hname
        · refine .inr ?_
          rw [text_append, length_append]
          rcases last?_text hl hname with hrest | hchildren
          · exact (two_le_printing hrest hname k).trans (Nat.le_add_left _ _)
          · exact (two_le_printing hchildren hname (k + 1)).trans (Nat.le_add_right _ _)

end Forest

namespace Page
variable {tags : TagTable} {u before w : Text} {k : Nat} {m l : Markup Text} {outer : List (Option Text)}
  {q : Page} {F : Forest}

theorem pop_short (hm : m.isNormal tags) (hlevel : q.level = k) (hlast : q.lastElement = m.name?)
    (helements : q.elements = m.ending (u.times k) :: outer)
    (hwritten : q.written = (u.times k ++ m.opening).reverse ++ before) :
    ∃ line, q.written = '\n' :: '>' :: line ∧ (q.pop tags u).written = '\n' :: '>' :: '/' :: ' ' :: line := by
  cases m with
  | text t => cases hm
  | element name attributes colon =>
    obtain ⟨rule, hrule, hnormal⟩ := (any_eq_true _ _).mp hm
    rw [beq_iff_eq] at hnormal
    have hending : ending (u.times k) (.element name attributes colon) =
        some (u.times k ++ ("</" ++ name ++ ">\n")) := by
      simp [ending, Definition.tags, definition]
    have hline : q.written = '\n' :: '>' :: ((u.times k ++ startTag name attributes).reverse ++ before) := by
      rw [hwritten, opening_element]
      simp
    refine ⟨_, hline, ?_⟩
    rw [hending] at helements
    have hclosed : (q.pop tags u).written = q.closed tags u (u.times k ++ ("</" ++ name ++ ">\n")) := by
      simp [pop, helements]
    rw [hclosed, closed_same hlevel hlast hrule, hnormal, hline]
    rfl

theorem ne_of_bracket_of_space {line s t : Text} (hs : '>' :: line <:+ s) (ht : ' ' :: line <:+ t) :
    s ≠ t := by
  intro heq
  rw [heq] at hs
  have hsame := suffix_of_suffix_length_le hs ht (Nat.le_refl _)
  have hcons := hsame.eq_of_length rfl
  cases hcons

variable {z : Page} {above : Outline}

/-- An element that takes the short form loses it if the page is rewound before it is closed. -/
theorem written_pops_ne {line after : Text} (hz : z.written = after ++ '\n' :: '>' :: line)
    (hafter : after ≠ []) (hq : q.written = '\n' :: '>' :: '/' :: ' ' :: line) (n n' : Nat) (w : Text) :
    ((pop tags u)^[n] z).written ≠ w ++ ((pop tags u)^[n'] q).written := by
  refine ne_of_bracket_of_space (?_ : '>' :: line <:+ _) ?_
  · refine IsSuffix.trans ?_ (written_pops n).1
    have hlong : z.written = (after ++ ['\n']) ++ '>' :: line := by
      rw [hz]
      simp
    apply suffix_of_suffix_length_le (hlong ▸ suffix_append _ _) (drop_suffix 2 _)
    have hpos := length_pos_of_ne_nil hafter
    rw [hlong]
    simp only [length_drop, length_append, length_cons, length_nil]
    omega
  · refine IsSuffix.trans ?_ (suffix_append _ _)
    refine IsSuffix.trans ?_ (written_pops n').1
    rw [hq]
    exact ⟨['/'], rfl⟩

theorem Latest.written_ne_of_isNormal (hu : isUnit u) (hq : Latest u (k + 1) m outer before q)
    (hm : m.isNormal tags) {after : Text}
    (hz : z.written = after ++ (q.rewind.pop tags u).written) (n n' : Nat) (w : Text) :
    ((pop tags u)^[n] z).written ≠ w ++ ((pop tags u)^[n'] (q.pop tags u)).written := by
  obtain ⟨line, hline, hpop⟩ := pop_short hm hq.level hq.last hq.elements hq.written
  cases m with
  | text t => cases hm
  | element name attributes colon =>
    obtain ⟨rule, hrule, hnormal⟩ := (any_eq_true _ _).mp hm
    rw [beq_iff_eq] at hnormal
    have hlast : q.lastElement = some name := hq.last
    obtain ⟨tag, htag⟩ : ∃ tag, tag = u.times (k + 1) ++ ("</" ++ name ++ ">\n") := ⟨_, rfl⟩
    have helements : q.elements = some tag :: outer := by
      rw [hq.elements, htag]
      simp [ending, Definition.tags, definition]
    have hrewind : (q.rewind.pop tags u).written = tag.reverse ++ q.written := by
      have hclosed : (q.rewind.pop tags u).written = q.rewind.closed tags u tag := by
        simp [pop, rewind, helements]
      have hstart : (endTag u 0 name).isPrefixOf tag = false := by
        obtain ⟨c, r, rfl⟩ := exists_cons_of_ne_nil ((isUnit_iff u).mp hu).1
        have hc : c ≠ '<' := by
          rcases ((isUnit_iff _).mp hu).2 c mem_cons_self with rfl | rfl <;> decide
        rw [htag, Text.times_succ]
        simp [endTag, isPrefixOf, hc.symm]
      have hlevel : q.rewind.level.toNat = 0 := rfl
      have hlast' : q.rewind.lastElement = some name := hlast
      simp only [hclosed, closed, hlast', bind_some, hrule, hnormal, hlevel, getD_some,
        hstart, Bool.false_eq_true, if_false]
      rfl
    have hlong : z.written = (after ++ tag.reverse) ++ '\n' :: '>' :: line := by
      rw [hz, hrewind, hline, append_assoc]
    exact written_pops_ne hlong (by simp [htag]) hpop n n' w

theorem Latest.rewind_pop (hq : Latest u k m outer before q) (hm : m.isNormal tags = false) :
    (q.rewind.pop tags u).written = (q.pop tags u).written := by
  have hpop := pops_written (p := q) (u := u) hq.last hm 1
  have hrewind := pops_written (p := q.rewind) (u := u) hq.last hm 1
  exact hrewind.trans hpop.symm

section Closing
variable (hu : isUnit u) (hF : ∀ x ∈ F.outline k, x.2.isPlain) (hl : F.last? = some l)
  (hlast : z.lastElement = l.name?)
include hu hF hl hlast

theorem written_ne_of_entries (hz : z.written = ((F.printing tags k).text u).reverse ++ w)
    (habove : ∃ y ∈ above, y.2.name? ≠ none) (n : Nat) : ((pop tags u)^[n] z).written ≠
      ((F.printing tags k).text u).reverse ++ (((above.entries u).flatMap (·.getD [])).reverse ++ w) := by
  intro heq
  obtain ⟨a, b, hab, hnot, hb⟩ := printing_head tags hu hF hl
  have hcut : z.written = b.reverse ++ (a.reverse ++ w) := by
    rw [hz, hab]
    simp
  have hkept : a.reverse ++ w <:+ ((pop tags u)^[n] z).written := by
    rcases hb with hname | hb
    · have htext : l.isNormal tags = false := by
        cases l with
        | text t => rfl
        | element name attributes colon => cases hname
      rw [pops_written hlast htext, hcut]
      exact (suffix_append _ _).trans (suffix_append _ _)
    · refine IsSuffix.trans ?_ (written_pops n).1
      apply suffix_of_suffix_length_le (hcut ▸ suffix_append _ _) (drop_suffix 2 _)
      rw [hcut, length_drop, @length_append _ b.reverse, length_reverse]
      omega
  obtain ⟨x, hx⟩ := hkept
  rw [heq, ← append_assoc, ← append_assoc] at hx
  have hsame := congrArg reverse (append_cancel_right hx)
  obtain ⟨j, r, hr⟩ := entries_opens (u := u) habove
  rw [reverse_append, reverse_append, reverse_reverse, reverse_reverse,
    reverse_reverse, hr, append_assoc, append_assoc] at hsame
  have htrue := opensWithEndTag_endTag hu j (r ++ (F.printing tags k).text u)
  rw [← hsame, hnot] at htrue
  cases htrue

/-- Whether lines are closed before a forest is placed or after it makes no difference exactly if they
are not closed at all. -/
theorem pops_eq_iff (helements : z.elements = above.entries u)
    (hz : z.written = ((F.printing tags k).text u).reverse ++ w) :
    ((pop tags u)^[(above.entries u).length] z).written = ((F.printing tags k).text u).reverse ++
        ((if m.isSingle tags then [] else (above.entries u).flatMap (·.getD [])).reverse ++ w) ↔
      (∀ y ∈ above, y.2.name? = none) ∨ (m.isSingle tags ∧ l.isSingle tags) := by
  by_cases hnone : ∀ y ∈ above, y.2.name? = none
  · have hentries : ∀ e ∈ above.entries u, e = none := by
      intro e he
      obtain ⟨y, hy, rfl⟩ := mem_map.mp he
      exact ending_eq_none (hnone y hy)
    have hempty : (above.entries u).flatMap (·.getD []) = [] := by
      rw [flatMap_eq_nil_iff]
      intro e he
      rw [hentries e he]
      rfl
    refine ⟨fun _ => .inl hnone, fun _ => ?_⟩
    rw [pops_written_of_none (helements ▸ hentries), hz, hempty, ite_self]
    rfl
  have habove : ∃ y ∈ above, y.2.name? ≠ none := by simpa using hnone
  cases hsingle : m.isSingle tags with
  | false =>
    have hne := written_ne_of_entries hu hF hl hlast hz habove (above.entries u).length
    exact ⟨fun h => absurd h hne, fun h => Bool.noConfusion (h.resolve_left hnone).1⟩
  | true =>
    change _ = _ ++ ([] ++ _) ↔ _
    rw [nil_append, ← hz]
    cases hend : l.isSingle tags with
    | true =>
      refine ⟨fun _ => .inr ⟨rfl, rfl⟩, fun _ => ?_⟩
      rw [pops_written hlast (isNormal_of_isSingle hend), hend]
      rfl
    | false =>
      have hsome : z.elements.flatMap (·.getD []) ≠ [] := by
        obtain ⟨j, r, hr⟩ := entries_opens (u := u) habove
        rw [helements, hr]
        simp
      have hlt := length_lt_pops (u := u) hlast hend hsome
      rw [helements] at hlt
      exact ⟨fun h => absurd (congrArg length h) hlt.ne', fun h => Bool.noConfusion (h.resolve_left hnone).2⟩

end Closing

/-- What follows the latest line comes out the same on the page and on the rewound page exactly if
the line does not take the short form and what it is nested in either is not closed here, or is not
closed at all. -/
theorem Latest.rewind_output_eq_iff (hu : isUnit u)
    (hq : Latest u (k + 1) m (above.entries u) before q) (hw : WellIndented o.depths)
    (hs : o.isPlain) (ho : ∀ x ∈ o, x.2.check tags = .ok ()) :
    ∃ d d', q.rewind.follow tags u o.trace = .ok d ∧ q.follow tags u o.trace = .ok d' ∧
      (d.output tags u = d'.output tags u ↔
        m.isNormal tags = false ∧ (o = [] ∨ (∀ y ∈ above, y.2.name? = none) ∨
          (m.isSingle tags ∧ ∀ y ∈ o.getLast?, y.2.isSingle tags))) := by
  have hforest := outline_forest hw
  have hopen : q.elements ≠ [] := by
    rw [hq.elements]
    exact cons_ne_nil _ _
  obtain ⟨d, z, hd, hdout, hzel, hzw, hzlast⟩ := hq.balanced.follow_rewind hu hopen hw ho
  have hchecked : ∀ x ∈ (ofOutline o).outline 0, x.2.check tags = .ok () := by
    rw [hforest]
    exact ho
  obtain ⟨d', hd', hbal, _, hdw, _⟩ := follow_printing hu (ofOutline o) 0 q hq.balanced
    (Nat.zero_le _) hchecked
  rw [hforest] at hd'
  rw [hq.elements, tail_cons] at hzel
  have hdout' : d'.output tags u = ((((ofOutline o).printing tags 0).text u).reverse ++
      ((pop tags u)^[(above.entries u).length] (q.pop tags u)).written).reverse := by
    have hroom : q.room - 0 = (above.entries u).length + 1 := by
      rw [← hq.balanced.length, hq.elements]
      rfl
    rw [output, hbal.length, ← Nat.sub_zero d'.room]
    change (d'.closeTo tags u 0).written.reverse = _
    rw [hdw, closeTo, hroom, Function.iterate_succ_apply]
  refine ⟨d, d', hd, hd', ?_⟩
  rw [hdout, hdout', reverse_inj, hzel]
  by_cases hnormal : m.isNormal tags
  · have hne := hq.written_ne_of_isNormal hu hnormal hzw (above.entries u).length (above.entries u).length
    exact ⟨fun h => absurd h (hne _), fun h => by simp [hnormal] at h⟩
  rw [Bool.not_eq_true] at hnormal
  have helements : (q.pop tags u).elements = above.entries u := by rw [pop_elements, hq.elements, tail_cons]
  have hclosed := pops_written (p := q.pop tags u) (u := u) (by rw [pop_lastElement, hq.last]) hnormal
    (above.entries u).length
  rw [helements, take_length] at hclosed
  rw [hq.rewind_pop hnormal] at hzw
  rw [hclosed]
  cases o with
  | nil =>
    refine ⟨fun _ => ⟨hnormal, .inl rfl⟩, fun _ => ?_⟩
    rw [ofOutline] at hzlast hzw
    rw [pops_written (hzlast.trans hq.last) hnormal, hzel, take_length, hzw, ofOutline]
    rfl
  | cons x o =>
    obtain ⟨y, hy⟩ : ∃ y, (x :: o).getLast? = some y := ⟨_, getLast?_cons⟩
    have hlast : (ofOutline (x :: o)).last? = some y.2 := by
      rw [last?_ofOutline, hy]
      rfl
    rw [hlast] at hzlast
    have hshaped : ∀ w ∈ (ofOutline (x :: o)).outline 0, w.2.isPlain := by
      rw [hforest]
      intro w hw
      have hw := all_eq_true.mp hs w hw
      rw [Bool.and_eq_true] at hw
      exact hw.1
    rw [pops_eq_iff hu hshaped hlast hzlast hzel hzw]
    simp [hnormal, hy]

end Page
end OutlineMarkup
