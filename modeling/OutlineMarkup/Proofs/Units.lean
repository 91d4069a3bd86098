import OutlineMarkup.Proofs.Rewinding

/-!
# Units of indentation

A document may be read with another unit of indentation than it was written with. As long as no line
is indented nothing comes of it; an indented line is either refused or leaves a trace in the output
that nothing after it takes away.
-/

namespace OutlineMarkup
open List Markup Outline

/-! ## Text that stays -/

/-- The first line of markup, without what the short form of an element replaces. -/
def Markup.core : Markup Text → Text
  | .element name attributes _ => (Markup.definition name attributes).tags.1.dropLast.dropLast
  | .text content => content ++ ['\n']

theorem Markup.opening_element (name : Text) (attributes : Option (List (Text × Text))) (colon : Bool) :
    ∃ r, (element name attributes colon).core = '<' :: r ∧
      (element name attributes colon).opening = '<' :: r ++ ">\n" := by
  obtain ⟨r, hr⟩ : ∃ r, (definition name attributes).tags.1 = '<' :: r ++ ">\n" := by
    by_cases hempty : (Text.join " " ((attributes.getD []).map attributeText)).isEmpty
    · refine ⟨name, ?_⟩
      simp only [definition, Definition.tags, hempty, if_true]
    · refine ⟨name ++ ' ' :: Text.join " " ((attributes.getD []).map attributeText), ?_⟩
      simp only [definition, Definition.tags, hempty]
      simp
  refine ⟨r, ?_, hr⟩
  have hcut : '<' :: r ++ ">\n" = ('<' :: r ++ ['>']) ++ ['\n'] := by simp
  rw [core, hr, hcut, dropLast_concat, dropLast_concat]

theorem Markup.core_eq {m : Markup Text} (hm : m.isPlain) :
    ∃ t c r, m.core = t ++ c :: r ∧ c ∉ t ∧ (c = '\n' ∨ c = '<') := by
  cases m with
  | text t =>
    have ht : '\n' ∉ t := not_mem_of_all (all_eq_true.mp hm) (by decide)
    exact ⟨t, '\n', [], rfl, ht, .inl rfl⟩
  | element name attributes colon =>
    obtain ⟨r, hr, _⟩ := opening_element name attributes colon
    exact ⟨[], '<', r, hr, not_mem_nil, .inr rfl⟩

namespace Page
variable {tags : TagTable} {unit u w : Text} {p q : Page} {k : Nat} {m : Markup Text} {o : Outline}

/-- What is written for good: the last two signs of an element may still give way to its short form. -/
def firm (p : Page) : Text := if p.lastElement.isSome then p.written.drop 2 else p.written

theorem firm_suffix : p.firm <:+ p.written := by
  unfold firm
  split
  · exact drop_suffix _ _
  · exact suffix_refl _

theorem drop_suffix_append {α : Type} (x y : List α) (n : Nat) : y.drop n <:+ (x ++ y).drop n := by
  rw [drop_append]
  exact (drop_suffix_drop_left y (Nat.sub_le n x.length)).trans (suffix_append _ _)

theorem firm_closed (tag : Text) (rest : List (Option Text)) :
    p.firm <:+ ({ p with elements := rest, written := p.closed tags unit tag } : Page).firm := by
  cases hlast : p.lastElement with
  | none =>
    simp only [firm, closed, hlast, Option.isSome_none, Bool.false_eq_true, if_false, Option.bind_none]
    exact suffix_append _ _
  | some e =>
    simp only [firm, closed, hlast, Option.isSome_some, if_true, Option.bind_some]
    split
    · exact drop_suffix_append _ _ _
    · split
      · exact suffix_refl _
      · exact drop_suffix_append _ _ _
      · split
        · exact suffix_append ['/', ' '] _
        · exact drop_suffix_append _ _ _

theorem firm_pop : p.firm <:+ (p.pop tags unit).firm := by
  unfold pop
  split
  · exact suffix_refl _
  · exact suffix_refl _
  · exact firm_closed _ _

theorem firm_pops (n : Nat) : p.firm <:+ ((Page.pop tags unit)^[n] p).firm := by
  induction n generalizing p with
  | zero => exact suffix_refl _
  | succ n ih => exact firm_pop.trans ih

theorem firm_write : (p.write unit k m).firm = (unit.times k ++ m.core).reverse ++ p.written := by
  cases m with
  | text t => rfl
  | element name attributes colon =>
    obtain ⟨r, hcore, hopening⟩ := opening_element name attributes colon
    simp [firm, write, hcore, hopening, name?]

theorem firm_put (h : p.put tags unit k m = .ok q) : p.firm <:+ q.firm := by
  obtain ⟨_, r, hr, rfl⟩ := put_ok h
  obtain ⟨n, _, rfl⟩ := enter_ok hr
  rw [firm_write]
  exact (firm_pops n).trans (firm_suffix.trans (suffix_append _ _))

theorem firm_follow (h : p.follow tags unit o.trace = .ok q) : p.firm <:+ q.firm := by
  induction o generalizing p with
  | nil =>
    cases h
    exact suffix_refl _
  | cons x o ih =>
    obtain ⟨r, hr, h⟩ := follow_cons_eq_ok h
    exact (firm_put hr).trans (ih h)

theorem firm_output : p.firm.reverse <+: p.output tags unit := by
  rw [output, reverse_prefix]
  exact (firm_pops _).trans firm_suffix

/-! ## Lines at the left edge -/

variable (h : p.level = 0)
include h

theorem pops_unit (n : Nat) : (Page.pop tags u)^[n] p = (Page.pop tags w)^[n] p := by
  induction n generalizing p with
  | zero => rfl
  | succ n ih =>
    have hpop : p.pop tags u = p.pop tags w := by
      simp [pop, closed, endTag, h]
    rw [Function.iterate_succ_apply, Function.iterate_succ_apply, hpop]
    exact ih (pop_level.trans h)

theorem put_unit : p.put tags u 0 m = p.put tags w 0 m := by
  have hclose : ∀ n, p.close tags u n = p.close tags w n := by
    intro n
    rw [close, close, pops_unit (w := w) h]
  simp only [put, enter, hclose]
  rfl

theorem follow_unit (ho : ∀ x ∈ o, x.1 = 0) :
    p.follow tags u o.trace = p.follow tags w o.trace := by
  induction o generalizing p with
  | nil => rfl
  | cons x o ih =>
    obtain ⟨k, m⟩ := x
    obtain rfl : k = 0 := ho _ mem_cons_self
    change (p.put tags u 0 m >>= Page.follow tags u (trace o)) =
      (p.put tags w 0 m >>= Page.follow tags w (trace o))
    rw [put_unit (w := w) h]
    cases hq : p.put tags w 0 m with
    | error f => rfl
    | ok q =>
      obtain ⟨_, r, hr, rfl⟩ := put_ok hq
      obtain ⟨n, _, rfl⟩ := enter_ok hr
      exact ih rfl (forall_mem_cons.mp ho).2

theorem follow_level (ho : ∀ x ∈ o, x.1 = 0)
    (hq : p.follow tags u o.trace = .ok q) : q.level = 0 := by
  induction o generalizing p with
  | nil =>
    cases hq
    exact h
  | cons x o ih =>
    obtain ⟨r, hr, hq⟩ := follow_cons_eq_ok hq
    obtain ⟨_, r', hr', rfl⟩ := put_ok hr
    obtain ⟨n, _, rfl⟩ := enter_ok hr'
    refine ih ?_ (forall_mem_cons.mp ho).2 hq
    change (x.1 : Int) = 0
    rw [ho x mem_cons_self]
    rfl

theorem output_unit : p.output tags u = p.output tags w := by
  rw [output, output, pops_unit (w := w) h]

end Page

namespace Outline

def rescaled (u w : Text) (o : Outline) : Outline :=
  o.map fun x => (x.1 * u.length / w.length, x.2)

theorem rescaled_append (u w : Text) (o q : Outline) :
    rescaled u w (o ++ q) = o.rescaled u w ++ q.rescaled u w := map_append

theorem rescaled_self {u : Text} (hu : u ≠ []) (o : Outline) : o.rescaled u u = o := by
  have hpos := length_pos_of_ne_nil hu
  simp [rescaled, Nat.mul_div_cancel _ hpos]

theorem rescaled_of_zero (u w : Text) {o : Outline} (ho : ∀ x ∈ o, x.1 = 0) : o.rescaled u w = o := by
  refine (map_congr_left fun x hx => ?_).trans (map_id o)
  rw [ho x hx, Nat.zero_mul, Nat.zero_div, ← ho x hx]
  rfl

theorem exists_first_indented {o : Outline} (hw : WellIndented o.depths) (hdeep : ∃ x ∈ o, x.1 ≠ 0) :
    ∃ (o₁ : Outline) (m₀ m : Markup Text) (o₂ : Outline), o = (o₁ ++ [(0, m₀)]) ++ (1, m) :: o₂ ∧ ∀ x ∈ o₁, x.1 = 0 := by
  obtain ⟨x, hx, hne⟩ := hdeep
  have hsome : (o.find? (·.1 != 0)).isSome := by
    rw [find?_isSome]
    exact ⟨x, hx, by simpa using hne⟩
  obtain ⟨⟨k, m⟩, hfind⟩ := Option.isSome_iff_exists.mp hsome
  obtain ⟨hk, o₁, o₂, rfl, hzero⟩ := find?_eq_some_iff_append.mp hfind
  have hclimbs := climbs_trace hw
  rw [trace_append, Trace.climbs_append] at hclimbs
  have hroom : k ≤ (trace o₁).roomAfter 0 := hclimbs.2.1
  have hk : k ≠ 0 := by simpa using hk
  rcases eq_nil_or_concat' o₁ with rfl | ⟨o₁, ⟨k₀, m₀⟩, rfl⟩
  · exact absurd (Nat.le_zero.mp hroom) hk
  · have hzero : ∀ y ∈ o₁ ++ [(k₀, m₀)], y.1 = 0 := by
      intro y hy
      simpa using hzero y hy
    obtain rfl : k₀ = 0 := hzero (k₀, m₀) (by simp)
    rw [trace_append, Trace.roomAfter_append] at hroom
    obtain rfl : k = 1 := by
      have hle : k ≤ 1 := hroom
      omega
    exact ⟨o₁, m₀, m, o₂, rfl, fun y hy => hzero y (mem_append_left _ hy)⟩

end Outline

theorem Text.eq_of_isPrefix {c : Char} {a b r r' z : Text} (ha : c ∉ a) (hb : c ∉ b)
    (h : a ++ c :: r <+: z) (h' : b ++ c :: r' <+: z) : a = b := by
  have htake : ∀ {a r : Text}, c ∉ a → a ++ c :: r <+: z → z.takeWhile (· != c) = a := by
    rintro a r ha ⟨y, rfl⟩
    rw [append_assoc, takeWhile_append_of_pos, cons_append, takeWhile_cons_of_neg, append_nil]
    · simp
    · intro d hd
      exact bne_iff_ne.mpr fun h => ha (h ▸ hd)
  exact (htake ha h).symm.trans (htake hb h')

namespace Page
variable {tags : TagTable} {u w : Text} {p q : Page} {m m₀ : Markup Text} {before : Text} {k : Nat}

theorem Latest.pop_written (h : Latest u 0 m₀ [] before p) (tags : TagTable) (w : Text) :
    (p.pop tags w).written = p.written ∨ (∃ r, (p.pop tags w).written.reverse = p.written.reverse ++ '<' :: r) ∨
      ∃ r, p.written.reverse = r ++ ">\n" ∧ (p.pop tags w).written.reverse = r ++ " />\n" := by
  cases m₀ with
  | text t =>
    refine .inl ?_
    rw [pop, h.elements]
    rfl
  | element name attributes colon =>
    obtain ⟨r, _, hopening⟩ := opening_element name attributes colon
    have hpop : (p.pop tags w).written = p.closed tags w ("</" ++ name ++ ">\n") := by
      rw [pop, h.elements]
      rfl
    have htag : ∀ x : Text, (("</" ++ name ++ ">\n").reverse ++ x).reverse =
        x.reverse ++ '<' :: ('/' :: (name ++ ">\n")) := by
      intro x
      simp
    rw [hpop, closed]
    split
    · exact .inr (.inl ⟨_, htag _⟩)
    · split
      · exact .inl rfl
      · exact .inr (.inl ⟨_, htag _⟩)
      · split
        · refine .inr (.inr ⟨before.reverse ++ '<' :: r, ?_, ?_⟩)
          · rw [h.written, hopening]
            simp
          · rw [h.written, hopening]
            simp
        · exact .inr (.inl ⟨_, htag _⟩)

theorem Latest.room (h : Latest u 0 m₀ [] before p) : p.room = 1 := by
  rw [← h.balanced.length, h.elements]
  rfl

theorem Latest.depth_le (h : Latest u 0 m₀ [] before p) (hq : p.put tags w k m = .ok q) : k ≤ 1 := by
  obtain ⟨_, r, hr, _⟩ := put_ok hq
  by_contra hk
  have hfresh : p.fresh = false := by
    cases hfresh : p.fresh with
    | false => rfl
    | true =>
      have hroom := h.room
      rw [Page.room, hfresh] at hroom
      cases hroom
  have hclosings : p.closings k = .error (.rejected .indentation) := by
    have hrise : ((k : Int) - p.level < 1) = False := by
      rw [h.level]
      simp
      omega
    have htoo : (k : Int) - p.level > 1 := by
      rw [h.level]
      simp
      omega
    simp [closings, Indentation.closings, hrise, htoo]
  rw [enter, hclosings] at hr
  cases hr

theorem Balanced.firm_put_eq (hp : p.Balanced) (hk : k ≤ p.room) (h : p.put tags w k m = .ok q) :
    q.firm.reverse = (p.closeTo tags w k).written.reverse ++ (w.times k ++ m.core) := by
  rw [hp.put_eq w (put_ok h).1 hk] at h
  cases h
  rw [firm_write, reverse_append, reverse_reverse]
  rfl

theorem Latest.firm_ne {p₂ q₂ : Page} {z : Text} (h : Latest u 0 m₀ [] before p) (hu : isUnit u)
    (hne : w ≠ u) (hm : m.isPlain) (hp₂ : p.put tags u 1 m = .ok p₂)
    (hq₂ : p.put tags w (u.length / w.length) m = .ok q₂) (hp : p₂.firm.reverse <+: z) :
    ¬ q₂.firm.reverse <+: z := by
  intro hq
  obtain ⟨t, c, r, hcore, hc, hsign⟩ := core_eq hm
  have hcu : c ∉ u := by
    intro hmem
    rcases ((isUnit_iff u).mp hu).2 c hmem with rfl | rfl <;> simp at hsign
  have hne_nil : u ≠ [] := ((isUnit_iff u).mp hu).1
  have hroom := h.room
  have hdepth := h.depth_le hq₂
  rw [h.balanced.firm_put_eq (by omega) hp₂, ← hroom, closeTo_room, hroom, Text.times_one, hcore] at hp
  rw [h.balanced.firm_put_eq (by omega) hq₂, hcore] at hq
  -- Both outputs go on behind what was written before the line.
  obtain ⟨z, rfl⟩ : p.written.reverse <+: z := (prefix_append _ _).trans hp
  rw [prefix_append_right_inj, ← append_assoc] at hp
  have hfirst : c ∉ u ++ t := by simp [hcu, hc]
  rcases Nat.le_one_iff_eq_zero_or_eq_one.mp hdepth with hd | hd
  · have hclose : p.closeTo tags w 0 = p.pop tags w := by rw [closeTo, hroom]; rfl
    rw [hd, hclose, Text.times_zero, nil_append] at hq
    rcases h.pop_written tags w with hpop | ⟨r', hpop⟩ | ⟨r', hwritten, hpop⟩
    · rw [hpop, prefix_append_right_inj] at hq
      have heq := Text.eq_of_isPrefix hfirst hc hp hq
      exact hne_nil (by simpa using heq)
    · rw [hpop, append_assoc, prefix_append_right_inj] at hq
      obtain ⟨d, v, rfl⟩ := exists_cons_of_ne_nil hne_nil
      obtain ⟨y, rfl⟩ := hp
      obtain rfl : '<' = d := (cons_prefix_cons.mp hq).1
      rcases ((isUnit_iff _).mp hu).2 '<' mem_cons_self with hd | hd <;> cases hd
    · rw [hpop, hwritten, append_assoc, append_assoc, prefix_append_right_inj] at hq
      exact absurd (cons_prefix_cons.mp hq).1 (by decide)
  · rw [hd, ← hroom, closeTo_room, hroom, prefix_append_right_inj, Text.times_one] at hq
    have hlength : w.length ≤ u.length := by
      by_contra hlt
      rw [Nat.div_eq_of_lt (by omega)] at hd
      cases hd
    by_cases hcw : c ∈ w
    · obtain ⟨a, b, rfl, ha⟩ := eq_append_cons_of_mem hcw
      rw [append_assoc] at hq
      have heq := Text.eq_of_isPrefix hfirst ha hp hq
      have hlonger := congrArg length heq
      simp only [length_append, length_cons] at hlonger hlength
      omega
    · rw [← append_assoc] at hq
      have heq := Text.eq_of_isPrefix hfirst (by simp [hcw, hc]) hp hq
      exact hne (append_cancel_right heq).symm

/-- With another unit an outline with an indented line comes out differently, if it comes out. -/
theorem output_rescaled_ne {o : Outline} (hu : isUnit u) (hne : w ≠ u) (hs : o.isPlain)
    (hwell : WellIndented o.depths) (hdeep : ∃ x ∈ o, x.1 ≠ 0)
    (hp : ({} : Page).follow tags u o.trace = .ok p)
    (hq : ({} : Page).follow tags w (o.rescaled u w).trace = .ok q) : q.output tags w ≠ p.output tags u := by
  obtain ⟨o₁, m₀, m, o₂, rfl, hzero⟩ := exists_first_indented hwell hdeep
  have hzero' : ∀ x ∈ o₁ ++ [(0, m₀)], x.1 = 0 := by
    intro x hx
    rcases mem_append.mp hx with hx | hx
    · exact hzero x hx
    · rw [mem_singleton.mp hx]
  have hclimbs := climbs_trace hwell
  rw [trace_append, Trace.climbs_append] at hclimbs
  rw [trace_append] at hp
  rw [rescaled_append, rescaled_of_zero u w hzero', trace_append] at hq
  obtain ⟨p₁, hp₁, hp⟩ := follow_append_eq_ok hp
  obtain ⟨q₁, hq₁, hq⟩ := follow_append_eq_ok hq
  -- Up to the line before the first indented one the pages are the same.
  obtain rfl : p₁ = q₁ := by
    rw [follow_unit (w := w) rfl hzero', hq₁] at hp₁
    cases hp₁
    rfl
  obtain ⟨before, hlatest⟩ : ∃ before, Latest u 0 m₀ [] before p₁ := by
    rw [trace_append, Trace.climbs_append] at hclimbs
    rw [trace_append] at hp₁
    obtain ⟨p₀, hp₀, hput⟩ := follow_append_eq_ok hp₁
    obtain ⟨r, hr, hnil⟩ := follow_cons_eq_ok hput
    cases hnil
    have hbalanced := (follow_opened hclimbs.1.1 hp₀).1
    obtain ⟨before, hlatest⟩ := hbalanced.put_latest (Nat.zero_le _) hr
    refine ⟨before, ?_⟩
    have hdrop : p₀.elements.drop (p₀.room - 0) = [] := by
      rw [← hbalanced.length]
      simp
    rwa [hdrop] at hlatest
  obtain ⟨p₂, hp₂, hp⟩ := follow_cons_eq_ok hp
  obtain ⟨q₂, hq₂, hq⟩ := follow_cons_eq_ok hq
  have hm : m.isPlain := by
    have h := all_eq_true.mp hs (1, m) (by simp)
    rw [Bool.and_eq_true] at h
    exact h.1
  have hq₂ : p₁.put tags w (u.length / w.length) m = .ok q₂ := by
    rw [← Nat.one_mul u.length]
    exact hq₂
  intro heq
  refine hlatest.firm_ne hu hne hm hp₂ hq₂ (z := p.output tags u) ?_ ?_
  · refine IsPrefix.trans ?_ firm_output
    exact reverse_prefix.mpr (firm_follow hp)
  · rw [← heq]
    refine IsPrefix.trans ?_ firm_output
    exact reverse_prefix.mpr (firm_follow hq)

end Page
end OutlineMarkup
