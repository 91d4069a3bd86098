import OutlineMarkup.Proofs.Documents

/-!
# Forests

The depths of its lines make a document a forest. What compiling the document prints is said by
recursion on the trees, line by line: a text, or an element with its start tag, what is nested in it
and its end tag. Whether an element gets an end tag hangs on the last line of its tree.
-/

namespace OutlineMarkup
open List Markup Outline Page

/-- Trees of markup, one after another, each with the forest nested in it. -/
inductive Forest where
  | nil
  | node (markup : Markup Text) (children rest : Forest)
  deriving Repr, DecidableEq

namespace Forest

/-- Nested in a line are the deeper lines right after it. -/
def ofOutline : Outline → Forest
  | [] => nil
  | (k, m) :: o => node m (ofOutline (o.takeWhile (k < ·.1))) (ofOutline (o.dropWhile (k < ·.1)))
termination_by o => o.length
decreasing_by
  · exact Nat.lt_succ_of_le (List.takeWhile_sublist _).length_le
  · exact Nat.lt_succ_of_le (List.dropWhile_sublist _).length_le

/-- The lines of a forest from a depth on. -/
def outline : Nat → Forest → Outline
  | _, nil => []
  | k, node m children rest => (k, m) :: (children.outline (k + 1) ++ rest.outline k)

def startTag (name : Text) (attributes : Option (List (Text × Text))) : Text :=
  '<' :: name ++ (attributes.getD []).flatMap fun a => ' ' :: Markup.attributeText a

def isNil : Forest → Bool
  | nil => true
  | node _ _ _ => false

def last? : Forest → Option (Markup Text)
  | nil => none
  | node m children rest => rest.last?.or (children.last?.or (some m))

end Forest

def TagTable.isSingle (tags : TagTable) (name : Text) : Bool :=
  (tags.rule? name).any (·.closing == .single)

def Markup.isSingle (tags : TagTable) : Markup Text → Bool
  | element name _ _ => tags.isSingle name
  | text _ => false

/-- A line of output, without its indentation. -/
inductive Mark where
  | start (name : Text) (attributes : Option (List (Text × Text)))
  | short (name : Text) (attributes : Option (List (Text × Text)))
  | finish (name : Text)
  | text (content : Text)
  deriving Repr, DecidableEq

namespace Mark

def written : Mark → Text
  | start name attributes => Forest.startTag name attributes ++ ">\n"
  | short name attributes => Forest.startTag name attributes ++ " />\n"
  | finish name => "</" ++ name ++ ">\n"
  | text content => content ++ ['\n']

end Mark

/-- Lines of output at their depths. -/
abbrev Printing := List (Nat × Mark)

def Printing.text (u : Text) (l : Printing) : Text := l.flatMap fun (k, m) => u.times k ++ m.written

theorem Printing.text_append (u : Text) (l r : Printing) :
    Printing.text u (l ++ r) = l.text u ++ r.text u := flatMap_append

namespace Forest

/-- What is printed for a tree, given the last line nested in it and what is printed for that. An
element takes the short form if nothing is nested in it and its rule allows that; otherwise it gets
an end tag unless the last line of the tree is an element that is never closed. -/
def treePrinting (tags : TagTable) (k : Nat) (m : Markup Text) (last : Option (Markup Text))
    (inside : Printing) : Printing :=
  match m with
  | .text t => (k, .text t) :: inside
  | .element name attributes _ =>
    if last.isNone && (tags.rule? name).any (·.closing == .normal) then [(k, .short name attributes)]
    else
      (k, .start name attributes) ::
        (inside ++ if (last.getD m).isSingle tags then [] else [(k, .finish name)])

def printing (tags : TagTable) : Nat → Forest → Printing
  | _, nil => []
  | k, node m children rest =>
    treePrinting tags k m children.last? (children.printing tags (k + 1)) ++ rest.printing tags k

theorem last?_eq_none_iff {F : Forest} : F.last? = none ↔ F.isNil := by
  cases F with
  | nil => exact ⟨fun _ => rfl, fun _ => rfl⟩
  | node m children rest => simp [last?, isNil]

/-! ## The forest of lines -/

theorem outline_ofOutline (o : Outline) (k : Nat) (hk : ∀ x ∈ o, k ≤ x.1) (hc : o.trace.Climbs k) :
    (ofOutline o).outline k = o := by
  induction o using ofOutline.induct generalizing k with
  | case1 => rw [ofOutline, outline]
  | case2 d m o ihchildren ihrest =>
    obtain rfl : d = k := Nat.le_antisymm hc.1 (hk _ mem_cons_self)
    have hsplit := takeWhile_append_dropWhile (p := fun x : Nat × Markup Text => d < x.1) (l := o)
    have hclimbs := hc.2
    change (trace o).Climbs (d + 1) at hclimbs
    rw [← hsplit, trace_append, Trace.climbs_append] at hclimbs
    rw [ofOutline, outline, ihchildren (d + 1) ?_ hclimbs.1, ihrest d ?_ ?_, hsplit]
    · intro x hx
      exact hk x (.tail _ ((dropWhile_sublist _).subset hx))
    · rcases hd : o.dropWhile (fun x => d < x.1) with _ | ⟨y, r⟩
      · rw [hd]
        trivial
      · have hy : ¬ d < y.1 := by
          have := head?_dropWhile_not (fun x : Nat × Markup Text => decide (d < x.1)) o
          simpa [hd] using this
        rw [hd] at hclimbs ⊢
        exact ⟨Nat.le_of_not_lt hy, hclimbs.2.2⟩
    · intro x hx
      have hlt : d < x.1 := by simpa using mem_takeWhile_imp hx
      exact hlt

/-! ## Tags -/

theorem join_space (parts : List Text) (p : Text) :
    Text.join " " (p :: parts) = p ++ parts.flatMap (' ' :: ·) := by
  induction parts generalizing p with
  | nil => simp [Text.join]
  | cons q parts ih =>
    have hcut : Text.join " " (p :: q :: parts) = p ++ (' ' :: Text.join " " (q :: parts)) := by
      simp [Text.join]
    rw [hcut, ih]
    simp

theorem tags_opening (name : Text) (items : List Text) (h : ∀ p ∈ items, p ≠ []) :
    (Definition.tags ⟨name, items⟩).1 = '<' :: name ++ items.flatMap (' ' :: ·) ++ ">\n" := by
  cases items with
  | nil => simp [Definition.tags, Text.join]
  | cons p items =>
    have hp := h p mem_cons_self
    have hne : (Text.join " " (p :: items)).isEmpty = false := by
      rw [join_space, isEmpty_eq_false_iff]
      simp [hp]
    simp only [Definition.tags, hne, Bool.false_eq_true, if_false]
    rw [join_space]
    simp

theorem opening_element (name : Text) (attributes : Option (List (Text × Text))) (colon : Bool) :
    (element name attributes colon).opening = startTag name attributes ++ ">\n" := by
  have hne : ∀ p ∈ (attributes.getD []).map attributeText, p ≠ [] := by
    intro p hp
    obtain ⟨a, _, rfl⟩ := mem_map.mp hp
    simp [attributeText]
  rw [opening, definition, tags_opening _ _ hne, startTag, flatMap_map]

end Forest

open Forest (treePrinting ofOutline)

section Closing
variable {tags : TagTable} {u name : Text} {k : Nat} {p : Page} {m : Markup Text}

theorem endTag_isPrefixOf_eq_false (hu : isUnit u) {n : Nat} (hk : k < n) (e : Text) :
    (endTag u n e).isPrefixOf (u.times k ++ ("</" ++ name ++ ">\n")) = false := by
  obtain ⟨j, rfl⟩ : ∃ j, n = k + (j + 1) := ⟨n - k - 1, by omega⟩
  obtain ⟨c, r, rfl⟩ := exists_cons_of_ne_nil ((isUnit_iff u).mp hu).1
  have hc : c ≠ '<' := by
    rcases ((isUnit_iff _).mp hu).2 c mem_cons_self with rfl | rfl <;> decide
  rw [← Bool.not_eq_true, isPrefixOf_iff_prefix, endTag, Text.times_add]
  simp only [append_assoc]
  rw [prefix_append_right_inj, Text.times_succ]
  rintro ⟨s, hs⟩
  simp [hc] at hs

theorem closed_deeper (hu : isUnit u) (hk : (k : Int) < p.level) (hlast : p.lastElement = m.name?) :
    p.closed tags u (u.times k ++ ("</" ++ name ++ ">\n")) = if m.isSingle tags then p.written
      else (u.times k ++ ("</" ++ name ++ ">\n")).reverse ++ p.written := by
  have hstart : (endTag u p.level.toNat (p.lastElement.getD [])).isPrefixOf
      (u.times k ++ ("</" ++ name ++ ">\n")) = false := endTag_isPrefixOf_eq_false hu (by omega) _
  rw [hlast] at hstart
  rw [closed, hlast]
  cases m with
  | text t => rfl
  | element e attributes colon =>
    simp only [name?, Option.bind_some] at hstart ⊢
    rw [isSingle, TagTable.isSingle]
    cases hrule : tags.rule? e with
    | none => rfl
    | some rule => cases hc : rule.closing <;> simp only [hstart, hc, Option.any_some] <;> rfl

theorem closed_same {rule : TagRule} (hl : p.level = k) (hlast : p.lastElement = some name)
    (hrule : tags.rule? name = some rule) :
    p.closed tags u (u.times k ++ ("</" ++ name ++ ">\n")) = match rule.closing with
      | .normal => " />\n".toList.reverse ++ p.written.drop 2
      | .separate => (u.times k ++ ("</" ++ name ++ ">\n")).reverse ++ p.written
      | .single => p.written := by
  have hstart : (endTag u k name).isPrefixOf (u.times k ++ ("</" ++ name ++ ">\n")) :=
    isPrefixOf_iff_prefix.mpr ⟨['\n'], by simp [endTag]⟩
  simp only [closed, hlast, Option.bind_some, hrule, hl, Int.toNat_natCast, Option.getD_some, hstart, if_true]
  cases rule.closing <;> rfl

theorem pop_tree {last : Option (Markup Text)} {inside : Printing} {before : Text}
    {entries : List (Option Text)} (hu : isUnit u) (hm : m.check tags = .ok ())
    (hel : p.elements = m.ending (u.times k) :: entries)
    (hw : p.written = (inside.text u).reverse ++ ((u.times k ++ m.opening).reverse ++ before))
    (hlast : p.lastElement = (last.getD m).name?)
    (hend : if last.isNone then inside = [] ∧ p.level = k else (k : Int) < p.level) :
    (p.pop tags u).written = ((treePrinting tags k m last inside).text u).reverse ++ before := by
  cases m with
  | text t =>
    have hpop : (p.pop tags u).written = p.written := by simp [pop, hel, ending]
    rw [hpop, hw]
    simp [treePrinting, Printing.text, Mark.written, opening]
  | element name attributes colon =>
    obtain ⟨rule, hrule⟩ := Option.isSome_iff_exists.mp (rule_of_check hm name rfl)
    have hpop : (p.pop tags u).written = p.closed tags u (u.times k ++ ("</" ++ name ++ ">\n")) := by
      simp [pop, hel, ending, Definition.tags, definition]
    rw [Forest.opening_element] at hw
    rw [hpop]
    cases last with
    | some l =>
      rw [closed_deeper hu hend (m := l) hlast, hw]
      by_cases hl : l.isSingle tags
      · simp [treePrinting, Printing.text, Mark.written, hl]
      · simp [treePrinting, Printing.text, Mark.written, hl]
    | none =>
      obtain ⟨rfl, hl⟩ := hend
      rw [closed_same hl hlast hrule, hw]
      cases hc : rule.closing <;>
        simp [treePrinting, Printing.text, Mark.written, isSingle, TagTable.isSingle, hrule, hc]

end Closing

/-! ## Forests on a page -/

namespace Forest
variable {tags : TagTable} {u : Text}

/-- Placing a forest adds its printing to what the page holds, as far as that is complete. -/
theorem follow_printing (hu : isUnit u) (F : Forest) (k : Nat) (p : Page) (hp : p.Balanced)
    (hk : k ≤ p.room) (hF : ∀ x ∈ F.outline k, x.2.check tags = .ok ()) :
    ∃ q, p.follow tags u (F.outline k).trace = .ok q ∧ q.Balanced ∧
      (q.closeTo tags u k).elements = (p.closeTo tags u k).elements ∧ (q.closeTo tags u k).written =
        ((F.printing tags k).text u).reverse ++ (p.closeTo tags u k).written ∧
      match F.last? with
      | none => q = p
      | some l => k < q.room ∧ q.lastElement = l.name? := by
  induction F generalizing k p with
  | nil => exact ⟨p, rfl, hp, rfl, rfl, rfl⟩
  | node m children rest ihchildren ihrest =>
    have hm : m.check tags = .ok () := hF (k, m) mem_cons_self
    have hstep : p.step tags u (k, some m) =
        .ok (((p.closeTo tags u k).push k (m.ending (u.times k))).write u k m) := hp.put_eq u hm hk
    obtain ⟨p₁, hp₁⟩ : ∃ p₁, p₁ = ((p.closeTo tags u k).push k (m.ending (u.times k))).write u k m := ⟨_, rfl⟩
    rw [← hp₁] at hstep
    have hroom₁ : p₁.room = k + 1 := (step_ok hstep).2
    have hself : p₁.closeTo tags u (k + 1) = p₁ := by rw [← hroom₁]; exact closeTo_room
    obtain ⟨p₂, hfollow₂, hp₂, helements₂, hwritten₂, hend₂⟩ :=
      ihchildren (k + 1) p₁ (hp.step hk hstep) hroom₁.ge fun x hx =>
        hF x (.tail _ (mem_append_left _ hx))
    rw [hself, hp₁] at helements₂ hwritten₂
    -- Below the line the page is as deep as the line, or deeper if something is nested in it.
    have hinside : k < p₂.room ∧ p₂.lastElement = (children.last?.getD m).name? ∧
        if children.last?.isNone then children.printing tags (k + 1) = [] ∧ p₂.level = k
        else (k : Int) < p₂.level := by
      cases hlast : children.last? with
      | none =>
        rw [hlast] at hend₂
        have hnil := last?_eq_none_iff.mp hlast
        obtain rfl : children = nil := by
          cases children with
          | nil => rfl
          | node _ _ _ => cases hnil
        rw [hend₂, hp₁]
        exact ⟨by simp, rfl, rfl, rfl⟩
      | some l =>
        rw [hlast] at hend₂
        exact ⟨by omega, hend₂.2, lt_level_of_lt_room hend₂.1⟩
    obtain ⟨hroom₂, hlast₂, hdepth₂⟩ := hinside
    obtain ⟨q, hfollow, hq, helements, hwritten, hend⟩ := ihrest k p₂ hp₂ hroom₂.le fun x hx =>
        hF x (.tail _ (mem_append_right _ hx))
    have htree : (p₂.closeTo tags u k).written =
        ((treePrinting tags k m children.last? (children.printing tags (k + 1))).text u).reverse ++
          (p.closeTo tags u k).written := by
      rw [closeTo_succ hroom₂]
      refine pop_tree hu hm helements₂ hwritten₂ ?_ ?_
      · rw [closeTo_lastElement]
        exact hlast₂
      · rw [closeTo_level]
        exact hdepth₂
    refine ⟨q, ?_, hq, ?_, ?_, ?_⟩
    · change p.follow tags u ((k, some m) :: trace (_ ++ _)) = .ok q
      rw [follow, hstep, trace_append]
      change p₁.follow tags u _ = .ok q
      rw [follow_append, hfollow₂]
      exact hfollow
    · rw [helements, closeTo_succ hroom₂, pop_elements, helements₂]
      rfl
    · rw [hwritten, htree, printing, Printing.text_append, reverse_append, append_assoc]
    · cases hrest : rest.last? with
      | none =>
        rw [hrest] at hend
        cases hchildren : children.last? <;> simp_all [last?]
      | some l =>
        rw [hrest] at hend
        simpa [last?, hrest] using hend

end Forest

theorem Outline.outline_forest {o : Outline} (hw : WellIndented o.depths) : (ofOutline o).outline 0 = o :=
  Forest.outline_ofOutline o 0 (fun _ _ => Nat.zero_le _) (climbs_trace hw)

/-- A document of allowed markup can be placed on a page, and what it comes to is its forest printed. -/
theorem Outline.follow_printing {tags : TagTable} {u : Text} {o : Outline} (hu : isUnit u)
    (hp : o.isPlain) (hw : WellIndented o.depths) (ha : o.isAllowed tags) :
    ∃ q, ({} : Page).follow tags u o.trace = .ok q ∧
      q.output tags u = ((ofOutline o).printing tags 0).text u := by
  have hcheck : ∀ x ∈ o, x.2.check tags = .ok () := by
    intro x hx
    have hshaped := all_eq_true.mp hp x hx
    rw [Bool.and_eq_true] at hshaped
    exact (check_eq_ok_iff hshaped.1).mpr (all_eq_true.mp ha x hx)
  have hforest := outline_forest hw
  have hblank := balanced_empty
  obtain ⟨q, hfollow, hq, _, hwritten, _⟩ :=
    Forest.follow_printing hu (ofOutline o) 0 {} hblank (Nat.zero_le _)
      (by rw [hforest]; exact hcheck)
  rw [hforest] at hfollow
  have hclose : (pop tags u)^[q.elements.length] q = q.closeTo tags u 0 := by
    rw [hq.length, closeTo, Nat.sub_zero]
  have hnone : (({} : Page).closeTo tags u 0).written = [] := rfl
  refine ⟨q, hfollow, ?_⟩
  rw [output, hclose, hwritten, hnone, append_nil, reverse_reverse]

namespace Document
variable {files : Files} {path u : Text}

theorem compile_eq_printing (tags : TagTable) {o : Outline} {terminated : Bool} (hu : isUnit u)
    (hread : HasFile files path (sourceText (o.lines u) terminated))
    (hp : o.isPlain) (hw : WellIndented o.depths) (ha : o.isAllowed tags) :
    (compile tags files path).Writes (((ofOutline o).printing tags 0).text u) := by
  obtain ⟨q, hfollow, houtput⟩ := follow_printing hu hp hw ha
  have hcompile := compile_outline tags hu hread hp hw
  rw [hfollow] at hcompile
  exact ⟨hcompile.1, hcompile.2.trans houtput⟩

end Document
end OutlineMarkup
