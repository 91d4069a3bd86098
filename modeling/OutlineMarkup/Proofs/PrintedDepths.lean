import OutlineMarkup.Proofs.Closing

/-!
# Depths in the output

Whatever a document nests, each of its lines is printed as one line of output that is not an end tag,
indented as deep as the line is. So of two documents of the same markup, only one with the same depths
throughout compiles to the same output.
-/

namespace OutlineMarkup
open List Forest

/-- The markup whose first line a line of output is, in its long form. -/
def Mark.opened? : Mark → Option Mark
  | start name attributes => some (.start name attributes)
  | short name attributes => some (.start name attributes)
  | finish _ => none
  | text content => some (.text content)

def Markup.mark : Markup Text → Mark
  | element name attributes _ => .start name attributes
  | text content => .text content

/-- The lines that open something, with their depths. -/
def Printing.opened (l : Printing) : List (Nat × Mark) :=
  l.filterMap fun x => x.2.opened?.map (x.1, ·)

theorem Printing.opened_append (l r : Printing) : Printing.opened (l ++ r) = l.opened ++ r.opened :=
  filterMap_append

namespace Forest
variable {tags : TagTable}

theorem opened_tree {k : Nat} {m : Markup Text} {last : Option (Markup Text)} {inside : Printing}
    (h : last = none → inside = []) :
    (treePrinting tags k m last inside).opened = (k, m.mark) :: inside.opened := by
  cases m with
  | text t => rfl
  | element name attributes colon =>
    rw [treePrinting]
    split
    · rename_i hshort
      rw [Bool.and_eq_true, Option.isNone_iff_eq_none] at hshort
      rw [h hshort.1]
      rfl
    · change (k, Mark.start name attributes) :: Printing.opened (inside ++ _) = _
      rw [Printing.opened_append]
      have hend : Printing.opened (if (last.getD (.element name attributes colon)).isSingle tags then []
          else [(k, .finish name)]) = [] := by
        split <;> rfl
      rw [hend, append_nil]
      rfl

theorem opened_printing (F : Forest) (k : Nat) :
    (F.printing tags k).opened = (F.outline k).map fun x => (x.1, x.2.mark) := by
  induction F generalizing k with
  | nil => rfl
  | node m children rest ihchildren ihrest =>
    rw [printing, Printing.opened_append, opened_tree, ihchildren, ihrest, outline, map_cons, map_append]
    · rfl
    · exact fun hlast => printing_eq_nil hlast (k + 1)

end Forest

/-! ## Reading the depths off -/

namespace Printing
variable {u : Text} {l r : Printing} {x : Nat × Mark} {m m' : Mark} {j k : Nat}

theorem opened_cons_none (h : x.2.opened? = none) : opened (x :: l) = l.opened := by
  rw [opened, filterMap_cons_none (by rw [h]; rfl)]
  rfl

theorem opened_cons_some (h : x.2.opened? = some m) : opened (x :: l) = (x.1, m) :: l.opened := by
  rw [opened, filterMap_cons_some (b := (x.1, m)) (by rw [h]; rfl)]
  rfl

theorem sign_eq (hu : isUnit u) (hm : m.isPlain)
    (hm' : m'.isPlain) (hrow : u.times j ++ m.written = u.times k ++ m'.written) : m.sign = m'.sign := by
  rw [← Mark.ofLine_written (k := j) hu hm, ← Mark.ofLine_written (k := k) hu hm', hrow]

theorem depth_eq (hu : isUnit u) (hm : m.isPlain)
    (hm' : m'.isPlain) (hrow : u.times j ++ m.written = u.times k ++ m'.written)
    (hopened : m.opened? = m'.opened?) (hsome : m.opened? ≠ none) : j = k := by
  have hsign := sign_eq hu hm hm' hrow
  have hmark : m = m' := by
    cases m <;> cases m' <;> simp_all [Mark.sign, Mark.opened?]
  subst hmark
  have hlength := congrArg length (append_cancel_right hrow)
  rw [Text.length_times, Text.length_times] at hlength
  have hpos : 0 < u.length := length_pos_of_ne_nil ((isUnit_iff u).mp hu).1
  exact Nat.eq_of_mul_eq_mul_right hpos hlength

theorem opened_eq (hu : isUnit u) (hl : ∀ x ∈ l, x.2.isPlain)
    (hr : ∀ x ∈ r, x.2.isPlain) (htext : l.text u = r.text u)
    (hopened : l.opened.map Prod.snd = r.opened.map Prod.snd) : l.opened = r.opened := by
  have hrows : l.map (fun x => u.times x.1 ++ x.2.written) = r.map fun x => u.times x.1 ++ x.2.written := by
    rw [← lines_text hu hl, ← lines_text hu hr, htext]
  clear htext
  induction l generalizing r with
  | nil => rw [map_eq_nil_iff.mp hrows.symm]
  | cons x l ih =>
    cases r with
    | nil => cases hrows
    | cons y r =>
      have hrow : u.times x.1 ++ x.2.written = u.times y.1 ++ y.2.written := (cons.inj hrows).1
      have hx := hl x mem_cons_self
      have hy := hr y mem_cons_self
      have hrest := fun h => ih (forall_mem_cons.mp hl).2
        (forall_mem_cons.mp hr).2 h (cons.inj hrows).2
      have hsign := sign_eq hu hx hy hrow
      -- An end tag stands beside an end tag.
      have hboth : x.2.opened? = none ↔ y.2.opened? = none := by
        cases hm : x.2 <;> cases hm' : y.2 <;> simp_all [Mark.sign, Mark.opened?]
      cases hxo : x.2.opened? with
      | none =>
        have hyo := hboth.mp hxo
        rw [opened_cons_none hxo, opened_cons_none hyo] at hopened ⊢
        exact hrest hopened
      | some a =>
        obtain ⟨b, hyo⟩ : ∃ b, y.2.opened? = some b := by
          rw [← Option.ne_none_iff_exists']
          exact fun h => by rw [hboth.mpr h] at hxo; cases hxo
        rw [opened_cons_some hxo, opened_cons_some hyo] at hopened ⊢
        obtain ⟨hab, htail⟩ := cons.inj hopened
        obtain rfl : a = b := hab
        rw [depth_eq hu hx hy hrow (hxo.trans hyo.symm) (hxo ▸ Option.some_ne_none a), hrest htail]

end Printing

/-- Documents of the same markup that are printed alike have the same depths. -/
theorem Outline.depths_eq_of_printing {tags : TagTable} {u : Text} (hu : isUnit u) {o o' : Outline}
    (hp : o.isPlain) (hp' : o'.isPlain) (hw : WellIndented o.depths)
    (hw' : WellIndented o'.depths) (hmarks : o.map (·.2.mark) = o'.map (·.2.mark))
    (htext : ((ofOutline o).printing tags 0).text u = ((ofOutline o').printing tags 0).text u) :
    o.depths = o'.depths := by
  have hshaped : ∀ o : Outline, o.isPlain → WellIndented o.depths →
      ∀ x ∈ (ofOutline o).printing tags 0, x.2.isPlain := by
    intro o hp hw
    refine isPlain_printing fun x hx => ?_
    rw [outline_forest hw] at hx
    exact (Bool.and_eq_true_iff.mp (all_eq_true.mp hp x hx)).1
  have hopened := Printing.opened_eq hu (hshaped o hp hw) (hshaped o' hp' hw') htext (by
    rw [opened_printing, opened_printing, outline_forest hw, outline_forest hw', map_map, map_map]
    exact hmarks)
  rw [opened_printing, opened_printing, outline_forest hw, outline_forest hw'] at hopened
  have hdepths := congrArg (map Prod.fst) hopened
  rw [map_map, map_map] at hdepths
  exact hdepths

end OutlineMarkup
