import OutlineMarkup.Proofs.VerbatimBlocks

/-!
# Tabs and spaces

A document of plain markup and verbatim blocks may be written with one tab or with some spaces at each
level. The lines of a block lose one character for each level up to their own, whatever the unit is.
Main statement: the unit with which a document is written shows in its output as indentation alone if
and only if it has one character or no block has a line.
-/

namespace OutlineMarkup
open List Text Markup Indentation Forest

/-- A document apart from its unit of indentation. A line of a block has at least one level more than
the block, and is given with the number of further levels. -/
inductive Draft where
  | nil
  | node (markup : Markup Text) (children rest : Draft)
  | block (kind : Verbatim) (content : List (Nat × Text)) (rest : Draft)
  deriving Repr, DecidableEq

namespace Draft

def written (u : Text) : Nat → Draft → Manuscript
  | _, nil => .nil
  | k, node m children rest => .node m (children.written u (k + 1)) (rest.written u k)
  | k, block v content rest =>
    .block v (content.map fun (d, t) => u.times (k + 1 + d) ++ t) (rest.written u k)

def lines (declared : List Verbatim) (u : Text) (D : Draft) : List Text :=
  declared.map Verbatim.written ++ (D.written u 0).lines u 0

def depths : Nat → Draft → List Nat
  | _, nil => []
  | k, node _ children rest => k :: (children.depths (k + 1) ++ rest.depths k)
  | k, block _ content rest => k :: (content.map (k + 1 + ·.1) ++ rest.depths k)

def contentCount : Draft → Nat
  | nil => 0
  | node _ children rest => children.contentCount + rest.contentCount
  | block _ content rest => content.length + rest.contentCount

/-- Text behind the indentation of a line of a block. -/
def isLineText (t : Text) : Bool :=
  t.head?.any (!Text.isBlank ·) && t.trimRight.getLast? != some '\\' && !t.has "\\$" && !t.hasChar '\n'

/-- The markup is plain and allowed, and the blocks are of the declared kinds. -/
def isFit (tags : TagTable) (declared : List Verbatim) : Draft → Bool
  | nil => true
  | node m children rest =>
    m.isPlain && isUnreserved m.written && m.isAllowed tags && declared.all (m.name? != some ·.name) &&
      children.isFit tags declared && rest.isFit tags declared
  | block v content rest =>
    declared.contains v && content.all (isLineText ·.2) && rest.isFit tags declared

end Draft

/-- Puts a unit in place of each tab before a line; the flag says whether nothing but tabs stands
before. -/
def reindentFrom (u : Text) : Bool → Text → Text
  | _, [] => []
  | leading, c :: s =>
    if leading && c == '\t' then u ++ reindentFrom u true s else c :: reindentFrom u (c == '\n') s

/-- Text with a unit in place of each leading tab of each line. -/
def reindent (u s : Text) : Text := reindentFrom u true s

namespace Text

theorem trimRight_ne_nil {s : Text} {c : Char} (hc : c ∈ s) (hblank : isBlank c = false) : s.trimRight ≠ [] := by
  intro hnil
  have hall : ∀ d ∈ s.reverse, isBlank d := dropWhile_eq_nil_iff.mp (reverse_eq_nil_iff.mp hnil)
  rw [hall c (mem_reverse.mpr hc)] at hblank
  cases hblank

theorem trimRight_append {s : Text} (h : s.trimRight ≠ []) (a : Text) :
    trimRight (a ++ s) = a ++ s.trimRight := by
  have hempty : (s.reverse.dropWhile isBlank).isEmpty = false := by
    rw [isEmpty_eq_false_iff]
    exact fun hnil => h (by rw [trimRight, dropRightWhile, hnil]; rfl)
  rw [trimRight, dropRightWhile, reverse_append, dropWhile_append, hempty]
  simp [trimRight, dropRightWhile]

end Text

/-! ## Lines with another unit -/

/-- At the start of a line, a text becomes another one. -/
def Reindents (u x y : Text) : Prop :=
  ∀ rest, reindentFrom u true (x ++ rest) = y ++ reindentFrom u true rest

namespace Reindents
variable {u x y x' y' : Text}

theorem nil (u : Text) : Reindents u [] [] := fun _ => rfl

theorem append (h : Reindents u x y) (h' : Reindents u x' y') : Reindents u (x ++ x') (y ++ y') := by
  intro rest
  rw [append_assoc, h, h', append_assoc]

theorem eq (h : Reindents u x y) : reindent u x = y := by
  have hall := h []
  rw [append_nil] at hall
  rw [reindent, hall]
  exact append_nil y

theorem tabs (u : Text) (k : Nat) : Reindents u (times ['\t'] k) (u.times k) := by
  intro rest
  induction k with
  | zero => rfl
  | succ k ih =>
    rw [times_succ, times_succ, append_assoc, append_assoc, singleton_append, reindentFrom, ih]
    rfl

theorem inside (hline : '\n' ∉ x) (rest : Text) :
    reindentFrom u false (x ++ '\n' :: rest) = x ++ '\n' :: reindentFrom u true rest := by
  induction x with
  | nil => rfl
  | cons c x ih =>
    have hc : (c == '\n') = false := beq_eq_false_iff_ne.mpr fun he => hline (he ▸ mem_cons_self)
    rw [cons_append, reindentFrom, Bool.false_and, if_neg Bool.false_ne_true, hc,
      ih fun hm => hline (.tail _ hm)]
    rfl

theorem line (hline : '\n' ∉ x) (htab : x.head? ≠ some '\t') (k : Nat) :
    Reindents u (times ['\t'] k ++ (x ++ ['\n'])) (u.times k ++ (x ++ ['\n'])) := by
  refine (tabs u k).append fun rest => ?_
  rw [append_assoc, append_assoc]
  cases x with
  | nil => rfl
  | cons c x =>
    have hc : (c == '\t') = false := beq_eq_false_iff_ne.mpr fun he => htab (he ▸ rfl)
    have hn : (c == '\n') = false := beq_eq_false_iff_ne.mpr fun he => hline (he ▸ mem_cons_self)
    rw [cons_append, singleton_append, reindentFrom, hc, Bool.and_false,
      if_neg Bool.false_ne_true, hn, inside fun hm => hline (.tail _ hm)]
    rfl

theorem flatMap {α : Type} {l : List α} {f g : α → Text} (h : ∀ a ∈ l, Reindents u (f a) (g a)) :
    Reindents u (l.flatMap f) (l.flatMap g) := by
  induction l with
  | nil => exact nil u
  | cons a l ih =>
    rw [flatMap_cons, flatMap_cons]
    exact (h a mem_cons_self).append (ih fun b hb => h b (.tail _ hb))

end Reindents

open Reindents (flatMap line)

/-! ## Marks -/

namespace Forest
variable {tags : TagTable} {k : Nat} {m : Markup Text} {u : Text}

/-- What is printed for a tree before what is nested in it, given whether the last line nested in it,
if there is one, is never closed. -/
def treeBefore (tags : TagTable) (k : Nat) (m : Markup Text) (last : Option Bool) : Printing :=
  match m with
  | .text t => [(k, .text t)]
  | .element name attributes _ =>
    if last.isNone && (tags.rule? name).any (·.closing == .normal) then [(k, .short name attributes)]
    else [(k, .start name attributes)]

def treeAfter (tags : TagTable) (k : Nat) (m : Markup Text) (last : Option Bool) : Printing :=
  match m with
  | .text _ => []
  | .element name _ _ =>
    if last.isNone && (tags.rule? name).any (·.closing == .normal) then []
    else if last.getD (m.isSingle tags) then [] else [(k, .finish name)]

theorem treePrinting_eq {last : Option (Markup Text)} {inside : Printing} (h : last = none → inside = []) :
    treePrinting tags k m last inside = treeBefore tags k m (last.map (·.isSingle tags)) ++
        (inside ++ treeAfter tags k m (last.map (·.isSingle tags))) := by
  cases m with
  | text t => simp [treePrinting, treeBefore, treeAfter]
  | element name attributes colon =>
    cases last with
    | some l => simp [treePrinting, treeBefore, treeAfter]
    | none =>
      obtain rfl := h rfl
      by_cases hshort : (tags.rule? name).any (·.closing == .normal) <;>
        simp [treePrinting, treeBefore, treeAfter, hshort]

theorem printing_node (children rest : Forest) : (node m children rest).printing tags k =
      treeBefore tags k m (children.last?.map (·.isSingle tags)) ++ (children.printing tags (k + 1) ++
        treeAfter tags k m (children.last?.map (·.isSingle tags))) ++ rest.printing tags k := by
  rw [printing, treePrinting_eq]
  intro hlast
  cases children with
  | nil => rfl
  | node m' c r => cases last?_eq_none_iff.mp hlast

def IsLine (w : Text) : Prop := ∃ x, w = x ++ ['\n'] ∧ '\n' ∉ x ∧ x.head? ≠ some '\t'

theorem newline_not_mem_startTag {name : Text} {attributes : Option (List (Text × Text))} {colon : Bool}
    (h : (element name attributes colon).isPlain) : '\n' ∉ startTag name attributes := by
  simp only [isPlain, isMadeOf, Bool.and_eq_true, all_eq_true] at h
  obtain ⟨hname, hattributes⟩ := h
  intro hm
  simp only [startTag, cons_append, mem_cons, mem_append, mem_flatMap] at hm
  rcases hm with hm | hm | ⟨⟨a, v⟩, ha, hm | hm⟩
  · cases hm
  · exact not_mem_of_all ((isAlphanumeric_iff _).mp hname).2 (by decide) hm
  · cases hm
  · obtain ⟨halpha, hvalue⟩ := hattributes _ ha
    rcases Attributes.mem_attributeText hm with hm | hm | hm | hm
    · exact not_mem_of_all ((isAlphanumeric_iff _).mp halpha).2 (by decide) hm
    · exact not_mem_of_all hvalue (by decide) hm
    · cases hm
    · cases hm

theorem isLine_before (hm : m.isPlain) (last : Option Bool) :
    ∀ x ∈ treeBefore tags k m last, IsLine x.2.written := by
  cases m with
  | text t =>
    have hchars : ∀ c ∈ t, isPlainChar c := all_eq_true.mp hm
    intro x hx
    obtain rfl := mem_singleton.mp hx
    refine ⟨t, rfl, not_mem_of_all hchars (by decide), fun hhead => ?_⟩
    exact not_mem_of_all hchars (by decide) (mem_of_mem_head? hhead)
  | element name attributes colon =>
    have htag := newline_not_mem_startTag hm
    intro x hx
    rw [treeBefore] at hx
    split at hx <;> obtain rfl := mem_singleton.mp hx
    · refine ⟨startTag name attributes ++ " />", ?_, ?_, ?_⟩
      · simp [Mark.written]
      · simp [htag]
      · simp [startTag]
    · refine ⟨startTag name attributes ++ ">", ?_, ?_, ?_⟩
      · simp [Mark.written]
      · simp [htag]
      · simp [startTag]

theorem isLine_after (hm : m.isPlain) (last : Option Bool) :
    ∀ x ∈ treeAfter tags k m last, IsLine x.2.written := by
  cases m with
  | text t =>
    intro x hx
    cases hx
  | element name attributes colon =>
    simp only [isPlain, isMadeOf, Bool.and_eq_true] at hm
    have hname : '\n' ∉ name := not_mem_of_all ((isAlphanumeric_iff _).mp hm.1).2 (by decide)
    intro x hx
    rw [treeAfter] at hx
    split at hx
    · cases hx
    · split at hx
      · cases hx
      · obtain rfl := mem_singleton.mp hx
        refine ⟨"</" ++ name ++ ">", ?_, ?_, ?_⟩
        · simp [Mark.written]
        · simp [hname]
        · simp

theorem reindents_text {l : Printing} (h : ∀ x ∈ l, IsLine x.2.written) :
    Reindents u (l.text ['\t']) (l.text u) := by
  refine flatMap fun x hx => ?_
  obtain ⟨w, hw, hline, htab⟩ := h x hx
  change Reindents u (times ['\t'] x.1 ++ x.2.written) (u.times x.1 ++ x.2.written)
  rw [hw]
  exact line hline htab x.1

end Forest

/-! ## What a draft prints -/

namespace Draft
variable {tags : TagTable} {declared : List Verbatim} {D rest : Draft} {u : Text} {k : Nat}
  {left left' : Nat → Nat → Text}

/-- The lines of a block, each behind what is left of its indentation. -/
def kept (left : Nat → Nat → Text) (k : Nat) (content : List (Nat × Text)) : Text :=
  content.flatMap fun (d, t) => left k d ++ (t ++ ['\n'])

/-- The forest that is printed, where `left k d` is left of the indentation of a line in a block at
depth `k` that has `d` further levels. -/
def forest (u : Text) (left : Nat → Nat → Text) : Nat → Draft → Forest
  | _, nil => .nil
  | k, node m children rest => .node m (children.forest u left (k + 1)) (rest.forest u left k)
  | k, block v content rest => .node (.text (v.blockText u k (kept left k content))) .nil (rest.forest u left k)

/-- One character is taken off for each level of the block and one more. -/
def stripped (u : Text) (k d : Nat) : Text := (u.times (k + 1 + d)).drop (k + 1)

/-- One unit is taken off for each level of the block and one more. -/
def unindented (u : Text) (_k d : Nat) : Text := u.times d

theorem forest_written (hu : u ≠ []) (D : Draft) (k : Nat) :
    (D.written u k).forest u k = D.forest u (stripped u) k := by
  induction D generalizing k with
  | nil => rfl
  | node m children rest ihchildren ihrest =>
    rw [written, Manuscript.forest, forest, ihchildren, ihrest]
  | block v content rest ih =>
    have hkept : (content.map fun (d, t) => u.times (k + 1 + d) ++ t).flatMap
        (fun l => l.drop (k + 1) ++ ['\n']) = kept (stripped u) k content := by
      rw [flatMap_map, kept]
      refine flatMap_congr fun x _ => ?_
      have hlength : k + 1 ≤ (u.times (k + 1 + x.1)).length := by
        rw [length_times]
        have hpos := Nat.le_mul_of_pos_right (k + 1 + x.1) (length_pos_of_ne_nil hu)
        omega
      change (u.times (k + 1 + x.1) ++ x.2).drop (k + 1) ++ ['\n'] = stripped u k x.1 ++ (x.2 ++ ['\n'])
      rw [drop_append_of_le_length hlength, stripped, append_assoc]
    rw [written, Manuscript.forest, forest, ih, hkept]

theorem isSingle_last (tags : TagTable) (D : Draft) (u w : Text) (left left' : Nat → Nat → Text) (k j : Nat) :
    (D.forest u left k).last?.map (·.isSingle tags) = (D.forest w left' j).last?.map (·.isSingle tags) := by
  induction D generalizing k j with
  | nil => rfl
  | node m children rest ihchildren ihrest =>
    rw [forest, forest, last?, last?, Option.map_or, Option.map_or, Option.map_or,
      Option.map_or, ihchildren (k + 1) (j + 1), ihrest k j]
  | block v content rest ih =>
    simp only [forest, last?, Option.map_or, ih k j]
    rfl

theorem text_block (v : Verbatim) (content : List (Nat × Text)) (rest : Draft) :
    (((block v content rest).forest u left k).printing tags k).text u =
      (u.times k ++ (v.opening ++ ['\n'])) ++ (kept left k content ++ (u.times k ++ (v.closing ++ ['\n']))) ++
        ((rest.forest u left k).printing tags k).text u := by
  rw [forest, printing, Printing.text_append]
  simp [treePrinting, printing, Printing.text, Mark.written, Verbatim.blockText]

theorem isFit_node {m : Markup Text} {children : Draft} : (node m children rest).isFit tags declared ↔
      m.isPlain ∧ isUnreserved m.written ∧ m.isAllowed tags ∧
        (∀ v ∈ declared, m.name? ≠ some v.name) ∧ children.isFit tags declared ∧
        rest.isFit tags declared := by
  simp [isFit, and_assoc]

theorem isFit_block {v : Verbatim} {content : List (Nat × Text)} :
    (block v content rest).isFit tags declared ↔
      v ∈ declared ∧ (∀ x ∈ content, isLineText x.2) ∧ rest.isFit tags declared := by
  simp [isFit, and_assoc]

theorem isLineText_iff {t : Text} : isLineText t ↔
    (∃ c, t.head? = some c ∧ isBlank c = false) ∧ t.trimRight.getLast? ≠ some '\\' ∧
      t.has "\\$" = false ∧ '\n' ∉ t := by
  simp [isLineText, Option.any_eq_true, hasChar_eq_false_iff, and_assoc]

/-- With tabs a document prints what it prints with a unit, but for the indentation, if the lines of
blocks lose whole units. -/
theorem reindents_printing (u : Text) (hd : ∀ v ∈ declared, v.isDeclarable)
    (htab : ∀ v ∈ declared, v.opening.head? ≠ some '\t' ∧ v.closing.head? ≠ some '\t')
    (hD : D.isFit tags declared) (k : Nat) :
    Reindents u (((D.forest ['\t'] (unindented ['\t']) k).printing tags k).text ['\t'])
      (((D.forest u (unindented u) k).printing tags k).text u) := by
  induction D generalizing k with
  | nil => exact Reindents.nil u
  | node m children rest ihchildren ihrest =>
    obtain ⟨hm, _, _, _, hchildren, hrest⟩ := isFit_node.mp hD
    have hlast := isSingle_last tags children ['\t'] u (unindented ['\t']) (unindented u)
      (k + 1) (k + 1)
    rw [forest, forest, printing_node, printing_node, hlast]
    simp only [Printing.text_append]
    exact ((reindents_text (isLine_before hm _)).append
      ((ihchildren hchildren (k + 1)).append (reindents_text (isLine_after hm _)))).append
      (ihrest hrest k)
  | block v content rest ih =>
    obtain ⟨hv, hcontent, hrest⟩ := isFit_block.mp hD
    have hdeclared := hd v hv
    simp only [Verbatim.isDeclarable, Bool.and_eq_true] at hdeclared
    have hopening := Verbatim.not_mem_around hdeclared.1.2 (c := '\n') (by decide)
    have hclosing := Verbatim.not_mem_around hdeclared.2 (c := '\n') (by decide)
    have hkept : Reindents u (kept (unindented ['\t']) k content) (kept (unindented u) k content) := by
      refine flatMap fun x hx => ?_
      obtain ⟨⟨c, hc, hblank⟩, _, _, hline⟩ := isLineText_iff.mp (hcontent x hx)
      refine line hline (fun hhead => ?_) x.1
      rw [hc] at hhead
      cases hhead
      cases hblank
    rw [text_block, text_block]
    exact ((line hopening (htab v hv).1 k).append
      (hkept.append (line hclosing (htab v hv).2 k))).append (ih hrest k)

theorem length_printing_le (tags : TagTable) (u : Text) (h : ∀ k d, (left k d).length < (left' k d).length) (D : Draft) (k : Nat) :
    (((D.forest u left k).printing tags k).text u).length + D.contentCount ≤
      (((D.forest u left' k).printing tags k).text u).length := by
  induction D generalizing k with
  | nil => exact Nat.le_refl _
  | node m children rest ihchildren ihrest =>
    have hlast := isSingle_last tags children u u left left' (k + 1) (k + 1)
    have hchildren := ihchildren (k + 1)
    have hrest := ihrest k
    rw [forest, forest, printing_node, printing_node, hlast, contentCount]
    simp only [Printing.text_append, length_append]
    omega
  | block v content rest ih =>
    have hkept : (kept left k content).length + content.length ≤ (kept left' k content).length := by
      induction content with
      | nil => exact Nat.le_refl _
      | cons x content ih =>
        have hline := h k x.1
        rw [kept, kept, flatMap_cons, flatMap_cons]
        rw [kept, kept] at ih
        simp only [length_append, length_cons] at ih ⊢
        omega
    have hrest := ih k
    rw [text_block, text_block, contentCount]
    simp only [length_append]
    omega

theorem forest_of_contentCount (h : D.contentCount = 0) (left left' : Nat → Nat → Text) (k : Nat) :
    D.forest u left k = D.forest u left' k := by
  induction D generalizing k with
  | nil => rfl
  | node m children rest ihchildren ihrest =>
    obtain ⟨hchildren, hrest⟩ := Nat.add_eq_zero_iff.mp h
    rw [forest, forest, ihchildren hchildren, ihrest hrest]
  | block v content rest ih =>
    obtain ⟨hcontent, hrest⟩ := Nat.add_eq_zero_iff.mp h
    obtain rfl := length_eq_zero_iff.mp hcontent
    rw [forest, forest, ih hrest]
    rfl

theorem length_stripped (u : Text) (k d : Nat) :
    (stripped u k d).length = (k + 1 + d) * u.length - (k + 1) := by
  rw [stripped, length_drop, length_times]

theorem stripped_of_length_one (h : u.length = 1) : stripped u = unindented u := by
  funext k d
  have hlength : (u.times (k + 1)).length = k + 1 := by rw [length_times, h, Nat.mul_one]
  rw [stripped, unindented, times_add]
  exact drop_left' hlength

theorem unindented_lt_stripped (h : 1 < u.length) (k d : Nat) :
    (unindented u k d).length < (stripped u k d).length := by
  rw [length_stripped, unindented, length_times, Nat.add_mul]
  have hmore : (k + 1) * 2 ≤ (k + 1) * u.length := Nat.mul_le_mul_left _ h
  omega

/-- The document prints the same with whole units taken off exactly if the unit is one character or
there is nothing to take them off. -/
theorem printing_stripped_iff (hu : u ≠ []) (D : Draft) :
    ((D.forest u (stripped u) 0).printing tags 0).text u =
        ((D.forest u (unindented u) 0).printing tags 0).text u ↔ u.length = 1 ∨ D.contentCount = 0 := by
  constructor
  · intro heq
    by_contra hnot
    rw [not_or] at hnot
    have hpos := length_pos_of_ne_nil hu
    have hle := length_printing_le tags u
      (unindented_lt_stripped (u := u) (by omega)) D 0
    rw [← heq] at hle
    omega
  · rintro (hone | hnone)
    · rw [stripped_of_length_one hone]
    · rw [forest_of_contentCount hnone (stripped u) (unindented u) 0]

/-! ## Documents -/

theorem isContent_written (hu : isUnit u) {x : Nat × Text} (hx : isLineText x.2) (k : Nat) :
    isContent u k (u.times (k + 1 + x.1) ++ x.2) := by
  obtain ⟨⟨c, hc, hblank⟩, hlast, hdollar, hline⟩ := isLineText_iff.mp hx
  have hmem := mem_of_mem_head? hc
  refine Compile.isContent_iff.mpr ⟨?_, ?_, ?_, ?_, ?_⟩
  · rw [times_add u (k + 1), append_assoc]
    exact prefix_append _ _
  · exact ⟨c, mem_append_right _ hmem, hblank⟩
  · have hne := trimRight_ne_nil hmem hblank
    rw [trimRight_append hne, getLast?_append_of_ne_nil _ hne]
    exact hlast
  · rw [has_eq_false_iff] at hdollar ⊢
    intro hpart
    refine hdollar (infix_of_infix_append_left (by decide) ?_ hpart)
    intro d hd
    exact not_mem_times hu (by revert d; decide)
  · intro hm
    rcases mem_append.mp hm with hm | hm
    · exact feed_not_mem_times hu hm
    · exact hline hm

theorem isFit_written (hu : isUnit u) (hD : D.isFit tags declared) (k : Nat) :
    (D.written u k).isFit tags u declared k := by
  induction D generalizing k with
  | nil => rfl
  | node m children rest ihchildren ihrest =>
    obtain ⟨hm, hun, ha, hname, hchildren, hrest⟩ := isFit_node.mp hD
    exact Manuscript.isFit_node.mpr ⟨hm, hun, ha, hname, ihchildren hchildren _, ihrest hrest _⟩
  | block v content rest ih =>
    obtain ⟨hv, hcontent, hrest⟩ := isFit_block.mp hD
    refine Manuscript.isFit_block.mpr ⟨hv, fun l hl => ?_, ih hrest k⟩
    obtain ⟨x, hx, rfl⟩ := mem_map.mp hl
    exact isContent_written hu (hcontent x hx) k

theorem leading_lines (hu : isUnit u) (hd : ∀ v ∈ declared, v.isDeclarable)
    (hD : D.isFit tags declared) (k : Nat) :
    Forall₂ (fun l d => leading l = u.times d) ((D.written u k).lines u k) (D.depths k) := by
  have hindents := indents_of_isUnit hu
  induction D generalizing k with
  | nil => exact .nil
  | node m children rest ihchildren ihrest =>
    obtain ⟨hm, hun, _, _, hchildren, hrest⟩ := isFit_node.mp hD
    have hcalm := (spells_written hm hun).calm
    obtain ⟨c, hc, hblank⟩ := hcalm.solid.head
    exact .cons (Compile.leading_times hindents hc hblank k)
      (rel_append (ihchildren hchildren _) (ihrest hrest _))
  | block v content rest ih =>
    obtain ⟨hv, hcontent, hrest⟩ := isFit_block.mp hD
    obtain ⟨c, hc, hblank⟩ := (Verbatim.solid_header (hd v hv)).head
    refine .cons (Compile.leading_times hindents hc hblank k) (rel_append ?_ (ih hrest k))
    rw [forall₂_map_left_iff, forall₂_map_right_iff, forall₂_same]
    intro x hx
    obtain ⟨⟨c, hc, hblank⟩, _⟩ := isLineText_iff.mp (hcontent x hx)
    exact Compile.leading_times hindents hc hblank _

/-- The first indented line is indented once. -/
def startsAtOne (D : Draft) : Bool := ((D.depths 0).find? (· != 0)).all (· == 1)

theorem leading_first (hu : isUnit u) (hd : ∀ v ∈ declared, v.isDeclarable)
    (hD : D.isFit tags declared) (hone : D.startsAtOne) :
    ∀ l ∈ ((D.written u 0).lines u 0).find? (fun l => !(leading l).isEmpty), leading l = u := by
  have hdepths := leading_lines hu hd hD 0
  rw [startsAtOne] at hone
  obtain ⟨hne, _⟩ := (isUnit_iff u).mp hu
  generalize (D.written u 0).lines u 0 = ls at hdepths ⊢
  generalize D.depths 0 = ds at hdepths hone
  induction hdepths with
  | nil => intro l hl; cases hl
  | @cons l d ls ds hl _ ih =>
    cases d with
    | zero =>
      rw [find?_cons_of_neg (by simp [hl])]
      exact ih (by simpa using hone)
    | succ d =>
      have hindented : (!(leading l).isEmpty) := by
        rw [hl, times_succ]
        simp [hne]
      rw [find?_cons_of_pos (p := fun l => !(leading l).isEmpty) hindented]
      intro x hx
      obtain rfl := Option.some.inj hx
      obtain rfl : d = 0 := by simpa using hone
      rw [hl, times_one]

end Draft

namespace Document
variable {tags : TagTable} {declared : List Verbatim} {D : Draft} {u : Text}

theorem compile_draft {files : Files} {path : Text}
    (hread : HasFile files path (sourceText (D.lines declared u) true))
    (hu : isUnit u) (hn : (declared.map Verbatim.name).Nodup)
    (hd : ∀ v ∈ declared, v.isDeclarable) (hD : D.isFit tags declared) (hone : D.startsAtOne) :
    (compile tags files path).Writes (((D.forest u (Draft.stripped u) 0).printing tags 0).text u) := by
  have h := compile_manuscript_eq_printing tags hread hu (Draft.leading_first hu hd hD hone) hn hd
    (Draft.isFit_written hu hD 0)
  rwa [Draft.forest_written ((isUnit_iff u).mp hu).1] at h

/-- A document written with spaces and the same document written with tabs both compile, and the
outputs differ in the indentation of lines alone if and only if one space stands for a level or no
block has a line. -/
theorem compile_unit_iff (tags : TagTable) (declared : List Verbatim) (D : Draft) (u : Text)
    (files files' : Files) (path path' : Text)
    (hread : HasFile files path (sourceText (D.lines declared u) true))
    (hread' : HasFile files' path' (sourceText (D.lines declared "\t") true))
    (hne : u ≠ []) (hspaces : ∀ c ∈ u, c = ' ') (hn : (declared.map Verbatim.name).Nodup)
    (hd : ∀ v ∈ declared, v.isDeclarable = true)
    (htab : ∀ v ∈ declared, v.opening.head? ≠ some '\t' ∧ v.closing.head? ≠ some '\t')
    (hD : D.isFit tags declared = true) (hone : D.startsAtOne = true) :
    (compile tags files path).fault = none ∧ (compile tags files' path').fault = none ∧
      ((compile tags files path).output = reindent u (compile tags files' path').output ↔
        u.length = 1 ∨ D.contentCount = 0) := by
  have hu : isUnit u = true := (isUnit_iff u).mpr ⟨hne, fun c hc => Or.inl (hspaces c hc)⟩
  obtain ⟨hfault, houtput⟩ := compile_draft hread hu hn hd hD hone
  obtain ⟨hfault', houtput'⟩ := compile_draft hread' (by decide) hn hd hD hone
  have htabs : Draft.stripped "\t" = Draft.unindented "\t" := Draft.stripped_of_length_one rfl
  refine ⟨hfault, hfault', ?_⟩
  rw [houtput, houtput', htabs]
  change _ = reindent u (((D.forest ['\t'] (Draft.unindented ['\t']) 0).printing tags 0).text ['\t']) ↔ _
  rw [(Draft.reindents_printing u hd htab hD 0).eq]
  exact Draft.printing_stripped_iff hne D

def sampleDraft : Draft :=
  .node (.element "div" none true)
    (.block ⟨"js", "<script>", "</script>"⟩
      [(0, "if x:"), (1, "y")] (.node (.text "z") .nil .nil)) .nil

theorem compile_unit_iff_sample :
    (compile sampleTags [("a", sourceText (sampleDraft.lines sampleKinds "  ") true)]
        "a").fault = none ∧
      (compile sampleTags [("a", sourceText (sampleDraft.lines sampleKinds "\t") true)]
        "a").fault = none ∧
      (compile sampleTags [("a", sourceText (sampleDraft.lines sampleKinds "  ") true)]
        "a").output ≠
      reindent "  " (compile sampleTags
        [("a", sourceText (sampleDraft.lines sampleKinds "\t") true)] "a").output := by
  have h := compile_unit_iff sampleTags sampleKinds sampleDraft "  "
    [("a", sourceText (sampleDraft.lines sampleKinds "  ") true)]
    [("a", sourceText (sampleDraft.lines sampleKinds "\t") true)] "a" "a"
    rfl rfl (by decide) (by decide) (by decide) (by decide) (by decide) (by decide) (by decide)
  exact ⟨h.1, h.2.1, fun heq => absurd (h.2.2.mp heq) (by decide)⟩

/-- With two spaces at each level, one of them stays before the line of a block. -/
theorem blockLine_keeps_space :
    (compile sampleTags [("a", "v = verbatim('<s>','</s>')\nv:\n  foo\n")] "a").output =
        "<s>\n foo\n</s>\n" ∧
      reindent "  " (compile sampleTags
        [("a", "v = verbatim('<s>','</s>')\nv:\n\tfoo\n")] "a").output =
        "<s>\nfoo\n</s>\n" :=
  ⟨by decide +kernel, by decide +kernel⟩

end Document
end OutlineMarkup
