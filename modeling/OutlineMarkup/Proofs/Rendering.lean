import OutlineMarkup.Proofs.Forests

/-!
# Rendering

The rendering of a forest under a grammar in which every tag is closed: a text, or an element with its
start tag, what is nested in it and its end tag. Main statement: compiling a document of plain markup
prints the rendering of its forest.
-/

namespace OutlineMarkup

namespace Forest

/-- A tree, given what is nested in it. An element in which nothing is nested takes the short form
if its rule allows that. -/
def tree (tags : TagTable) (u : Text) (k : Nat) (m : Markup Text) (leaf : Bool) (inside : Text) :
    Text :=
  match m with
  | .text t => u.times k ++ t ++ ['\n'] ++ inside
  | .element name attributes _ =>
    if leaf && (tags.rule? name).any (·.closing == .normal) then
      u.times k ++ startTag name attributes ++ " />\n"
    else
      u.times k ++ startTag name attributes ++ ">\n" ++ inside ++
        u.times k ++ "</" ++ name ++ ">\n"

def render (tags : TagTable) (u : Text) : Nat → Forest → Text
  | _, nil => []
  | k, node m children rest =>
    tree tags u k m children.isNil (children.render tags u (k + 1)) ++ rest.render tags u k

section Closed
variable {tags : TagTable} {u : Text}
  (hsingle : ∀ e rule, tags.rule? e = some rule → rule.closing ≠ .single)

include hsingle

theorem isSingle_eq_false (m : Markup Text) : m.isSingle tags = false := by
  cases m with
  | text t => rfl
  | element name attributes colon =>
    rw [Markup.isSingle, TagTable.isSingle]
    cases hrule : tags.rule? name with
    | none => rfl
    | some rule => simpa using hsingle name rule hrule

theorem tree_eq_printing (k : Nat) (m : Markup Text) (children : Forest) (inside : Printing) :
    tree tags u k m children.isNil (inside.text u) =
      (treePrinting tags k m children.last? inside).text u := by
  cases m with
  | text t => simp [tree, treePrinting, Printing.text, Mark.written]
  | element name attributes colon =>
    have hnone : children.last?.isNone = children.isNil := by
      rw [Bool.eq_iff_iff, Option.isNone_iff_eq_none, last?_eq_none_iff]
    rw [tree, treePrinting, hnone, isSingle_eq_false hsingle]
    split
    · simp [Printing.text, Mark.written]
    · simp [Printing.text, Mark.written]

theorem render_eq_printing (F : Forest) (k : Nat) : F.render tags u k = (F.printing tags k).text u := by
  induction F generalizing k with
  | nil => rfl
  | node m children rest ihchildren ihrest =>
    rw [render, printing, Printing.text_append, ihchildren, ihrest, tree_eq_printing hsingle]

end Closed

theorem follow_outline {tags : TagTable} {u : Text} (hu : isUnit u)
    (hsingle : ∀ e rule, tags.rule? e = some rule → rule.closing ≠ .single) (F : Forest) (k : Nat)
    (p : Page) (hp : p.Balanced) (hk : k ≤ p.room) (hF : ∀ x ∈ F.outline k, x.2.check tags = .ok ()) :
    ∃ q, p.follow tags u (F.outline k).trace = .ok q ∧ q.Balanced ∧
      (q.closeTo tags u k).elements = (p.closeTo tags u k).elements ∧
      (q.closeTo tags u k).written = (F.render tags u k).reverse ++ (p.closeTo tags u k).written ∧
      if F.isNil then q = p else k < q.room := by
  obtain ⟨q, hfollow, hq, helements, hwritten, hend⟩ := follow_printing hu F k p hp hk hF
  refine ⟨q, hfollow, hq, helements, ?_, ?_⟩
  · rw [hwritten, render_eq_printing hsingle]
  · cases hlast : F.last? with
    | none =>
      rw [hlast] at hend
      rw [if_pos (last?_eq_none_iff.mp hlast)]
      exact hend
    | some l =>
      rw [hlast] at hend
      rw [if_neg (by rw [← last?_eq_none_iff, hlast]; exact nofun)]
      exact hend.1

end Forest

/-! ## Documents -/

theorem Table.mem_of_get? {α : Type} {t : Table α} {name : Text} {a : α} (h : t.get? name = some a) :
    (name, a) ∈ t := by
  induction t with
  | nil => cases h
  | cons x t ih =>
    obtain ⟨k, b⟩ := x
    rw [Table.get?] at h
    split at h
    · rename_i hk
      cases h
      rw [hk]
      exact List.mem_cons_self
    · exact List.mem_cons_of_mem _ (ih h)

theorem TagTable.closing_ne_single {tags : TagTable} (hsingle : ∀ entry ∈ tags, entry.2.closing ≠ .single)
    {name : Text} {rule : TagRule} (h : tags.rule? name = some rule) : rule.closing ≠ .single := by
  obtain ⟨key, _, hget⟩ := get?_of_rule? h
  exact hsingle _ (Table.mem_of_get? hget)

namespace Document

/-- A document of plain markup, well indented and allowed by a grammar in which every tag is
closed, compiles to the rendering of the forest of its lines. -/
theorem compile_eq_render (tags : TagTable) (u : Text) (o : Outline) (terminated : Bool)
    (files : Files) (path : Text)
    (hread : HasFile files path (sourceText (o.lines u) terminated))
    (hsingle : ∀ entry ∈ tags, entry.2.closing ≠ .single) (hu : isUnit u = true)
    (hp : o.isPlain = true) (hw : WellIndented o.depths) (ha : o.isAllowed tags = true) :
    (compile tags files path).Writes ((Forest.ofOutline o).render tags u 0) := by
  have hcheck : ∀ x ∈ o, x.2.check tags = .ok () := by
    intro x hx
    have hplain := List.all_eq_true.mp hp x hx
    rw [Bool.and_eq_true] at hplain
    exact Markup.check_of_isAllowed hplain.1 (List.all_eq_true.mp ha x hx)
  have hforest : (Forest.ofOutline o).outline 0 = o :=
    Forest.outline_ofOutline o 0 (fun _ _ => Nat.zero_le _) (Outline.climbs_trace hw)
  have hblank : ({} : Page).Balanced := ⟨⟨Int.le_refl _, fun _ => rfl⟩, rfl⟩
  obtain ⟨q, hfollow, hq, _, hwritten, _⟩ :=
    Forest.follow_outline hu (fun _ _ => TagTable.closing_ne_single hsingle) (Forest.ofOutline o) 0 {} hblank (Nat.zero_le _)
      (by rw [hforest]; exact hcheck)
  rw [hforest] at hfollow
  have hcompile := compile_outline tags hu hread hp hw
  rw [hfollow] at hcompile
  refine ⟨hcompile.1, hcompile.2.trans ?_⟩
  have hclose : (Page.pop tags u)^[q.elements.length] q = q.closeTo tags u 0 := by
    rw [hq.length, Page.closeTo, Nat.sub_zero]
  have hnone : (({} : Page).closeTo tags u 0).written = [] := rfl
  rw [Page.output, hclose, hwritten, hnone, List.append_nil, List.reverse_reverse]

def sampleOutline : Outline :=
  [(0, .element "div" (some [("id", "a b")]) true), (1, .text "x-y"),
    (2, .element "br" none false), (1, .element "p" (some []) false),
    (0, .element "p" none true)]

def sampleTags : TagTable := [("*", ⟨.normal, none⟩), ("br", ⟨.separate, some []⟩)]

theorem compile_eq_render_sample :
    (compile sampleTags [("a", sourceText (sampleOutline.lines "  ") false)]
        "a").Writes ("<div id=\"a b\">\n  x-y\n    <br>\n    </br>\n  <p />\n</div>\n<p />\n").toList := by
  have h := compile_eq_render sampleTags "  " sampleOutline false
    [("a", sourceText (sampleOutline.lines "  ") false)] "a"
    (by rfl) (by decide) (by decide) (by decide) (by decide) (by decide)
  refine ⟨h.1, h.2.trans ?_⟩
  simp [sampleOutline, Forest.ofOutline, Forest.render]
  decide

end Document
end OutlineMarkup
