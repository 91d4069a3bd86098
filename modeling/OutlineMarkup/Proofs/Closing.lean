import OutlineMarkup.Proofs.Forests

/-!
# Closing

Output is read line by line as start tags, tags in short form, end tags and texts. Tags that are never
closed aside, every start tag should have its end tag, and the tags should be properly nested. Main
statement: this is so exactly if no tree of the document ends, below its first line, in an element
that is never closed.
-/

namespace OutlineMarkup
open List Markup Bool
variable {attributes : Option (List (Text × Text))} {name u : Text} {k : Nat}

open Forest (startTag)

inductive Sign where
  | start (name : Text)
  | short (name : Text)
  | finish (name : Text)
  | text
  deriving Repr, DecidableEq

namespace Sign

def ofLine (line : Text) : Sign :=
  match line.dropWhile Text.isBlank with
  | '<' :: '/' :: s => finish (s.takeWhile Char.isAlphanum)
  | '<' :: s =>
    if "/>\n".toList.isSuffixOf line then short (s.takeWhile Char.isAlphanum)
    else start (s.takeWhile Char.isAlphanum)
  | _ => text

def all (output : Text) : List Sign := output.lines.map ofLine

/-- Every element that is not single is closed once, in short form or by an end tag, the tags are
properly nested, and nothing closes a single element. The open elements stand innermost first. -/
def closes (tags : TagTable) : (opened : List Text) → List Sign → Bool
  | opened, [] => opened.isEmpty
  | opened, start name :: l => closes tags (if tags.isSingle name then opened else name :: opened) l
  | opened, short name :: l => !tags.isSingle name && closes tags opened l
  | [], finish _ :: _ => false
  | top :: opened, finish name :: l => top == name && closes tags opened l
  | opened, text :: l => closes tags opened l

def closed? : Sign → Option Text
  | short name => some name
  | finish name => some name
  | _ => none

def opens (tags : TagTable) : Sign → Bool
  | start name => !tags.isSingle name
  | _ => false

def isFinish : Sign → Bool
  | finish _ => true
  | _ => false

/-- Where everything is closed there are as many end tags as start tags of elements to close. -/
theorem countP_of_closes {tags : TagTable} {opened : List Text} {l : List Sign} (h : closes tags opened l) :
    opened.length + l.countP (opens tags) = l.countP isFinish := by
  fun_induction closes tags opened l with
  | case1 opened => simpa using h
  | case2 opened name l ih =>
    have hrest := ih h
    rw [countP_cons, countP_cons]
    by_cases hs : tags.isSingle name
    · rw [if_pos hs] at hrest
      simpa [hs, opens, isFinish] using hrest
    · rw [if_neg hs, length_cons] at hrest
      simp only [hs, opens, isFinish]
      simp only [Bool.not_false, if_true, Bool.false_eq_true, if_false]
      omega
  | case3 opened name l ih =>
    rw [Bool.and_eq_true] at h
    simpa [countP_cons, opens, isFinish] using ih h.2
  | case4 name l => cases h
  | case5 top opened name l ih =>
    rw [Bool.and_eq_true] at h
    have hrest := ih h.2
    rw [countP_cons, countP_cons, length_cons]
    simp only [opens, isFinish, Bool.false_eq_true, if_false, if_true]
    omega
  | case6 opened l ih => simpa [countP_cons, opens, isFinish] using ih h

end Sign

open Sign (closes opens isFinish ofLine)

namespace Forest

def singlesAreLeaves (tags : TagTable) : Forest → Bool
  | nil => true
  | node m children rest =>
    (!m.isSingle tags || children.isNil) && children.singlesAreLeaves tags &&
      rest.singlesAreLeaves tags

/-- The elements in whose trees the last line is nested and is a single element. -/
def unclosed (tags : TagTable) : Forest → List Text
  | nil => []
  | node m children rest =>
    (if children.last?.any (·.isSingle tags) then m.name?.toList else []) ++
      (children.unclosed tags ++ rest.unclosed tags)

end Forest

namespace Mark

def sign : Mark → Sign
  | start name _ => .start name
  | short name _ => .short name
  | finish name => .finish name
  | text _ => .text

end Mark

def Printing.signs (l : Printing) : List Sign := l.map (·.2.sign)

open Printing (signs text)

namespace Forest
variable {tags : TagTable} {k : Nat} {name : Text} {inside : Printing} {m : Markup Text}

theorem signs_node (k : Nat) (m : Markup Text) (children rest : Forest) :
    signs ((node m children rest).printing tags k) =
      signs (treePrinting tags k m children.last? (children.printing tags (k + 1))) ++
        signs (rest.printing tags k) := map_append

variable {last : Option (Markup Text)} {F : Forest}

theorem signs_element {colon : Bool}
    : signs (treePrinting tags k (.element name attributes colon) last inside) =
      if last.isNone && (tags.rule? name).any (·.closing == .normal) then [.short name]
      else .start name :: (inside.signs ++
        if (last.getD (.element name attributes colon)).isSingle tags then [] else [.finish name]) := by
  rw [treePrinting]
  split
  · rfl
  · split <;> simp [signs, Mark.sign]

theorem isSingle_of_normal (h : (tags.rule? name).any (·.closing == .normal)) :
    tags.isSingle name = false := by
  rw [TagTable.isSingle]
  cases hrule : tags.rule? name with
  | none => rfl
  | some rule =>
    rw [hrule] at h
    cases hc : rule.closing <;> simp [hc] at h ⊢

/-- If no tree ends in a single element below its first line, everything is closed. -/
theorem closes_printing (hF : F.singlesAreLeaves tags) (hnone : F.unclosed tags = [])
    (k : Nat) (opened : List Text) (l : List Sign) :
    closes tags opened (signs (F.printing tags k) ++ l) = closes tags opened l := by
  induction F generalizing k opened l with
  | nil => rfl
  | node m children rest ihchildren ihrest =>
    rw [singlesAreLeaves, Bool.and_eq_true, Bool.and_eq_true] at hF
    rw [unclosed, append_eq_nil_iff, append_eq_nil_iff] at hnone
    obtain ⟨⟨hleaf, hchildren⟩, hrest⟩ := hF
    obtain ⟨hself, hnone, hnone'⟩ := hnone
    rw [signs_node, append_assoc]
    cases m with
    | text t =>
      change closes tags opened (.text :: (signs (children.printing tags (k + 1)) ++ _)) = _
      rw [closes, ihchildren hchildren hnone, ihrest hrest hnone']
    | element name attributes colon =>
      rw [signs_element]
      split
      · rename_i hshort
        rw [Bool.and_eq_true] at hshort
        rw [singleton_append, closes, isSingle_of_normal hshort.2, ihrest hrest hnone']
        rfl
      · rw [cons_append, closes, append_assoc, ihchildren hchildren hnone]
        cases hlast : children.last? with
        | none =>
          rw [Option.getD_none, isSingle]
          by_cases hs : tags.isSingle name
          · rw [if_pos hs, if_pos hs]
            exact ihrest hrest hnone' k opened l
          · rw [if_neg hs, if_neg hs, singleton_append, closes, beq_self_eq_true, Bool.true_and]
            exact ihrest hrest hnone' k opened l
        | some x =>
          rw [hlast] at hself
          have hx : x.isSingle tags = false := by
            by_contra hx
            simp [hx, name?] at hself
          have hs : tags.isSingle name = false := by
            by_contra hs
            have hnil : children.isNil := by
              simpa [isSingle, hs] using hleaf
            rw [last?_eq_none_iff.mpr hnil] at hlast
            cases hlast
          rw [Option.getD_some, hx, hs]
          simp only [Bool.false_eq_true, if_false, singleton_append]
          rw [closes, beq_self_eq_true, Bool.true_and]
          exact ihrest hrest hnone' k opened l

theorem printing_eq_nil (h : F.last? = none) (k : Nat) : F.printing tags k = [] := by
  cases F with
  | nil => rfl
  | node m children rest => simp [last?] at h

theorem countP_tree (k : Nat)
    (hleaf : m.isSingle tags → last = none) (hinside : last = none → inside = []) :
    (signs (treePrinting tags k m last inside)).countP (opens tags) + inside.signs.countP isFinish =
      (signs (treePrinting tags k m last inside)).countP isFinish + inside.signs.countP (opens tags) +
        (if last.any (·.isSingle tags) then m.name?.toList else []).length := by
  cases m with
  | text t =>
    change (Sign.text :: inside.signs).countP _ + _ = (Sign.text :: inside.signs).countP _ + _ + _
    simp only [countP_cons, opens, isFinish, name?]
    simp only [false_eq_true, if_false, Option.toList_none, ite_self, length_nil]
    omega
  | element name attributes colon =>
    rw [signs_element]
    split
    · rename_i hshort
      rw [and_eq_true, Option.isNone_iff_eq_none] at hshort
      rw [hinside hshort.1, hshort.1]
      rfl
    · rw [countP_cons, countP_cons, countP_append, countP_append]
      rw [isSingle] at hleaf
      cases last with
      | none =>
        rw [Option.getD_none, isSingle]
        by_cases hs : tags.isSingle name
        · simp [hs, opens, isFinish]
          omega
        · simp [hs, opens, isFinish]
          omega
      | some x =>
        have hs : tags.isSingle name = false := by
          by_contra hs
          exact absurd (hleaf (by simpa using hs)) (by simp)
        by_cases hx : x.isSingle tags
        · simp [hs, hx, opens, isFinish, name?]
          omega
        · simp [hs, hx, opens, isFinish]
          omega

/-- End tags are missing for the elements in whose trees the last line is nested and single. -/
theorem countP_printing (hF : F.singlesAreLeaves tags) (k : Nat) :
    (signs (F.printing tags k)).countP (opens tags) =
      (signs (F.printing tags k)).countP isFinish + (F.unclosed tags).length := by
  induction F generalizing k with
  | nil => rfl
  | node m children rest ihchildren ihrest =>
    rw [singlesAreLeaves, and_eq_true, and_eq_true] at hF
    obtain ⟨⟨hleaf, hchildren⟩, hrest⟩ := hF
    have hc := ihchildren hchildren (k + 1)
    have hr := ihrest hrest k
    have hlast : m.isSingle tags → children.last? = none := fun hs =>
      last?_eq_none_iff.mpr (by simpa [hs] using hleaf)
    have hinside : children.last? = none → children.printing tags (k + 1) = [] := (printing_eq_nil · (k + 1))
    have htree := countP_tree k hlast hinside
    rw [signs_node, countP_append, countP_append, unclosed, length_append, length_append]
    omega

theorem closes_printing_iff (hF : F.singlesAreLeaves tags) (k : Nat) :
    closes tags [] (signs (F.printing tags k)) ↔ F.unclosed tags = [] := by
  constructor
  · intro h
    have hcount := Sign.countP_of_closes h
    rw [countP_printing hF k, length_nil] at hcount
    exact eq_nil_of_length_eq_zero (by omega)
  · intro h
    have hcloses := closes_printing hF h k [] []
    rw [append_nil] at hcloses
    rw [hcloses]
    rfl

theorem closed?_tree (hleaf : m.isSingle tags → last = none) {x : Sign}
    (hx : x ∈ signs (treePrinting tags k m last inside)) :
    x ∈ inside.signs ∨ ∀ name ∈ x.closed?, tags.isSingle name = false := by
  cases m with
  | text t =>
    rcases mem_cons.mp hx with rfl | hx
    · exact .inr nofun
    · exact .inl hx
  | element e attributes colon =>
    rw [signs_element] at hx
    split at hx
    · rename_i hshort
      rw [and_eq_true] at hshort
      obtain rfl := mem_singleton.mp hx
      refine .inr fun name hname => ?_
      obtain rfl := Option.some.inj hname
      exact isSingle_of_normal hshort.2
    · rcases mem_cons.mp hx with rfl | hx
      · exact .inr nofun
      rcases mem_append.mp hx with hx | hx
      · exact .inl hx
      · split at hx
        · cases hx
        · rename_i hend
          obtain rfl := mem_singleton.mp hx
          refine .inr fun name hname => ?_
          obtain rfl := Option.some.inj hname
          by_contra hs
          have hself : (element e attributes colon).isSingle tags := by
            simpa [isSingle] using hs
          rw [hleaf hself, Option.getD_none] at hend
          exact hend hself

theorem closed?_printing (hF : F.singlesAreLeaves tags) (k : Nat) :
    ∀ x ∈ signs (F.printing tags k), ∀ name ∈ x.closed?, tags.isSingle name = false := by
  induction F generalizing k with
  | nil => exact nofun
  | node m children rest ihchildren ihrest =>
    rw [singlesAreLeaves, and_eq_true, and_eq_true] at hF
    obtain ⟨⟨hleaf, hchildren⟩, hrest⟩ := hF
    intro x hx
    rw [signs_node] at hx
    rcases mem_append.mp hx with hx | hx
    · rcases closed?_tree (fun hs => last?_eq_none_iff.mpr (by simpa [hs] using hleaf)) hx with hx | hx
      · exact ihchildren hchildren (k + 1) x hx
      · exact hx
    · exact ihrest hrest k x hx

end Forest

/-! ## Reading the output -/

namespace Mark

/-- Names are made of letters and digits, values and texts are plain. -/
def isPlain : Mark → Bool
  | start name attributes => (Markup.element name attributes false).isPlain
  | short name attributes => (Markup.element name attributes false).isPlain
  | finish name => name.isAlphanumeric
  | text content => content.all isPlainChar

theorem startTag_signs (h : (Markup.element name attributes false).isPlain) :
    ∀ c ∈ startTag name attributes, c ≠ '\n' ∧ c ≠ '/' := by
  simp only [Markup.isPlain, Markup.isMadeOf, and_eq_true, all_eq_true] at h
  have hword : ∀ c : Char, c.isAlphanum → c ≠ '\n' ∧ c ≠ '/' :=
    fun c hc => ⟨ne_of_class hc (by decide), ne_of_class hc (by decide)⟩
  intro c hc
  rw [startTag, cons_append, mem_cons, mem_append, mem_flatMap] at hc
  rcases hc with rfl | hc | ⟨a, ha, hc⟩
  · decide
  · exact hword c (((isAlphanumeric_iff name).mp h.1).2 c hc)
  · obtain ⟨hname, hvalue⟩ := h.2 a ha
    rw [Markup.attributeText, mem_cons, mem_append, mem_append, mem_append, mem_singleton] at hc
    rcases hc with rfl | ((hc | hc) | hc) | rfl
    · decide
    · exact hword c (((isAlphanumeric_iff a.1).mp hname).2 c hc)
    · have hequals : ∀ d ∈ "=\"".toList, d ≠ '\n' ∧ d ≠ '/' := by decide
      exact hequals c hc
    · have hplain := hvalue c hc
      exact ⟨ne_of_class hplain (by decide), ne_of_class hplain (by decide)⟩
    · decide

theorem written_eq {m : Mark} (hm : m.isPlain) : ∃ s, m.written = s ++ ['\n'] ∧ '\n' ∉ s := by
  cases m with
  | start name attributes =>
    refine ⟨startTag name attributes ++ ['>'], by simp [written], ?_⟩
    simpa using fun hc => (startTag_signs hm _ hc).1 rfl
  | short name attributes =>
    refine ⟨startTag name attributes ++ [' ', '/', '>'], by simp [written], ?_⟩
    simpa using fun hc => (startTag_signs hm _ hc).1 rfl
  | finish name =>
    refine ⟨'<' :: '/' :: (name ++ ['>']), by simp [written], ?_⟩
    have hname : '\n' ∉ name := not_mem_of_all ((isAlphanumeric_iff name).mp hm).2 (by decide)
    simpa using hname
  | text t => exact ⟨t, rfl, not_mem_of_all (all_eq_true.mp hm) (by decide)⟩

theorem takeWhile_name {rest : Text} (hn : name.isAlphanumeric)
    (hrest : ∀ c ∈ rest.head?, c.isAlphanum = false) : (name ++ rest).takeWhile Char.isAlphanum = name := by
  rw [takeWhile_append_of_pos ((isAlphanumeric_iff name).mp hn).2]
  cases rest with
  | nil => simp
  | cons c rest => simp [hrest c rfl]

theorem ofLine_startTag {tail : Text} (hu : isUnit u) (hm : (Markup.element name attributes false).isPlain)
    (ht : ∀ c ∈ tail.head?, c.isAlphanum = false) :
    ofLine (u.times k ++ (startTag name attributes ++ tail)) =
      if "/>\n".toList.isSuffixOf (u.times k ++ (startTag name attributes ++ tail))
      then .short name else .start name := by
  have hname : name.isAlphanumeric := by
    simp only [Markup.isPlain, Markup.isMadeOf, and_eq_true] at hm
    exact hm.1
  obtain ⟨hne, hall⟩ := (isAlphanumeric_iff name).mp hname
  obtain ⟨c, r, rfl⟩ := exists_cons_of_ne_nil hne
  have hslash : c ≠ '/' := ne_of_class (hall c mem_cons_self) (by decide)
  let rest := (attributes.getD []).flatMap (fun a => ' ' :: Markup.attributeText a) ++ tail
  have hcut : startTag (c :: r) attributes ++ tail = '<' :: c :: (r ++ rest) := by
    simp [startTag, rest]
  have hrest : ∀ d ∈ rest.head?, d.isAlphanum = false := by
    intro d hd
    cases hattributes : attributes.getD [] with
    | nil =>
      rw [show rest = tail by simp [rest, hattributes]] at hd
      exact ht d hd
    | cons a attributes =>
      obtain rfl : ' ' = d := by simpa [rest, hattributes] using hd
      rfl
  have htake : (c :: (r ++ rest)).takeWhile Char.isAlphanum = c :: r := takeWhile_name hname hrest
  have hdrop : (u.times k ++ (startTag (c :: r) attributes ++ tail)).dropWhile Text.isBlank =
      '<' :: c :: (r ++ rest) := by
    rw [dropWhile_append_of_pos (isBlank_of_mem_times hu), hcut]
    rfl
  rw [ofLine, hdrop]
  split
  · rename_i s heq
    obtain ⟨_, heq⟩ := cons.inj heq
    exact absurd (cons.inj heq).1 hslash
  · rename_i s _ heq
    obtain rfl := (cons.inj heq).2
    rw [htake]
  · rename_i hno
    exact absurd rfl (hno _)

theorem ofLine_written {m : Mark} (hu : isUnit u) (hm : m.isPlain) :
    ofLine (u.times k ++ m.written) = m.sign := by
  cases m with
  | start name attributes =>
    rw [written, ofLine_startTag hu hm (by rintro _ ⟨⟩; rfl), if_neg]
    · rfl
    · rw [isSuffixOf_iff_suffix, ← append_assoc]
      intro h
      have hslash : ['/'] <:+ u.times k ++ startTag name attributes := by
        have h' : ['/'] ++ ">\n".toList <:+ (u.times k ++ startTag name attributes) ++ ">\n".toList := h
        exact suffix_append_self_iff.mp h'
      rcases mem_append.mp (hslash.subset mem_cons_self) with hc | hc
      · exact not_mem_times hu rfl hc
      · exact (startTag_signs hm _ hc).2 rfl
  | short name attributes =>
    rw [written, ofLine_startTag hu hm (by rintro _ ⟨⟩; rfl), if_pos]
    · rfl
    · rw [isSuffixOf_iff_suffix]
      exact ⟨u.times k ++ (startTag name attributes ++ [' ']), by simp⟩
  | finish name =>
    have htake : (name ++ ">\n").takeWhile Char.isAlphanum = name := takeWhile_name hm (by rintro _ ⟨⟩; rfl)
    have hdrop : (u.times k ++ (finish name).written).dropWhile Text.isBlank =
        '<' :: '/' :: (name ++ ">\n") := by
      rw [dropWhile_append_of_pos (isBlank_of_mem_times hu)]
      rfl
    rw [ofLine, hdrop]
    simp only [htake]
    rfl
  | text t =>
    have hangle : '<' ∉ (u.times k ++ (text t).written).dropWhile Text.isBlank := by
      intro hc
      rcases mem_append.mp ((dropWhile_suffix _).subset hc) with hc | hc
      · exact not_mem_times hu rfl hc
      · rcases mem_append.mp hc with hc | hc
        · exact not_mem_of_all (all_eq_true.mp hm) (by decide) hc
        · simp at hc
    rw [ofLine]
    split
    · rename_i heq
      exact absurd (by rw [heq]; exact mem_cons_self) hangle
    · rename_i heq
      exact absurd (by rw [heq]; exact mem_cons_self) hangle
    · rfl

end Mark

theorem Printing.lines_text {l : Printing} (hu : isUnit u) (hl : ∀ x ∈ l, x.2.isPlain) :
    Text.lines (l.text u) = l.map fun x => u.times x.1 ++ x.2.written := by
  induction l with
  | nil => rfl
  | cons x l ih =>
    have hx := hl x mem_cons_self
    obtain ⟨s, hs, hnl⟩ := Mark.written_eq hx
    have hcut : text u (x :: l) = (u.times x.1 ++ s) ++ '\n' :: text u l := by
      change (u.times x.1 ++ x.2.written) ++ text u l = _
      rw [hs]
      simp
    have hline : u.times x.1 ++ s ++ ['\n'] = u.times x.1 ++ x.2.written := by
      rw [hs, append_assoc]
    have hblank : '\n' ∉ u.times x.1 ++ s := by
      intro hc
      rcases mem_append.mp hc with hc | hc
      · rcases ((isUnit_iff u).mp hu).2 _ (Text.mem_times hc) with h | h <;> exact absurd h (by decide)
      · exact hnl hc
    rw [hcut, Text.lines_append_newline hblank, ih (forall_mem_cons.mp hl).2, hline]
    rfl

theorem Printing.all_text {l : Printing} (hu : isUnit u)
    (hl : ∀ x ∈ l, x.2.isPlain) : Sign.all (l.text u) = l.signs := by
  rw [Sign.all, lines_text hu hl, map_map]
  exact map_congr_left fun x hx => Mark.ofLine_written hu (hl x hx)

theorem Forest.isPlain_printing {tags : TagTable} {F : Forest}
    (h : ∀ x ∈ F.outline k, x.2.isPlain) : ∀ x ∈ F.printing tags k, x.2.isPlain := by
  induction F generalizing k with
  | nil => exact nofun
  | node m children rest ihchildren ihrest =>
    have hm : m.isPlain := h (k, m) mem_cons_self
    have hchildren := ihchildren fun x hx => h x (.tail _ (mem_append_left _ hx))
    have hrest := ihrest fun x hx => h x (.tail _ (mem_append_right _ hx))
    intro x hx
    rcases mem_append.mp hx with hx | hx
    · cases m with
      | text t =>
        rcases mem_cons.mp hx with rfl | hx
        · exact hm
        · exact hchildren x hx
      | element name attributes colon =>
        have hname : name.isAlphanumeric := by
          simp only [isPlain, isMadeOf, and_eq_true] at hm
          exact hm.1
        rw [treePrinting] at hx
        split at hx
        · obtain rfl := mem_singleton.mp hx
          exact hm
        · rcases mem_cons.mp hx with rfl | hx
          · exact hm
          rcases mem_append.mp hx with hx | hx
          · exact hchildren x hx
          · split at hx
            · cases hx
            · obtain rfl := mem_singleton.mp hx
              exact hname
    · exact hrest x hx

namespace Document

/-- A document of markup in which nothing is nested in single elements is printed tree by tree, and
nothing closes a single element. The other elements are all closed, properly nested, exactly if no
element has a single element for the last line nested in it: such an element gets no end tag. -/
theorem compile_closes_iff (tags : TagTable) (u : Text) (o : Outline) (terminated : Bool)
    (files : Files) (path : Text)
    (hread : HasFile files path (sourceText (o.lines u) terminated))
    (hu : isUnit u = true) (hp : o.isPlain = true) (hw : WellIndented o.depths)
    (ha : o.isAllowed tags = true) (hleaf : (Forest.ofOutline o).singlesAreLeaves tags = true) :
    (compile tags files path).fault = none ∧
      (compile tags files path).output = ((Forest.ofOutline o).printing tags 0).text u ∧
      (∀ x ∈ Sign.all (compile tags files path).output, ∀ name ∈ x.closed?,
        tags.isSingle name = false) ∧
      (Sign.closes tags [] (Sign.all (compile tags files path).output) = true ↔
        (Forest.ofOutline o).unclosed tags = []) := by
  obtain ⟨hfault, houtput⟩ := compile_eq_printing tags hu hread hp hw ha
  have hforest : (Forest.ofOutline o).outline 0 = o :=
    Forest.outline_ofOutline o 0 (fun _ _ => Nat.zero_le _) (Outline.climbs_trace hw)
  have hshaped : ∀ x ∈ (Forest.ofOutline o).outline 0, x.2.isPlain = true := by
    rw [hforest]
    intro x hx
    have hx := List.all_eq_true.mp hp x hx
    rw [Bool.and_eq_true] at hx
    exact hx.1
  have hsigns : Sign.all (compile tags files path).output =
      Printing.signs ((Forest.ofOutline o).printing tags 0) := by
    rw [houtput]
    exact Printing.all_text hu (Forest.isPlain_printing hshaped)
  rw [hsigns]
  exact ⟨hfault, houtput, Forest.closed?_printing hleaf 0, Forest.closes_printing_iff hleaf 0⟩

def singleTags : TagTable := [("*", ⟨.normal, none⟩), ("br", ⟨.single, some []⟩)]

def closedOutline : Outline :=
  [(0, .element "div" none true), (1, .element "br" none false),
    (1, .element "p" (some [("id", "a b")]) true), (2, .text "x-y"),
    (0, .element "br" none false)]

theorem compile_closes_iff_sample :
    Sign.closes singleTags [] (Sign.all (compile singleTags
      [("a", sourceText (closedOutline.lines "  ") false)] "a").output) = true := by
  have h := compile_closes_iff singleTags "  " closedOutline false
    [("a", sourceText (closedOutline.lines "  ") false)] "a" (by rfl) (by decide)
    (by decide) (by decide) (by decide) (by decide +kernel)
  exact h.2.2.2.mpr (by decide +kernel)

def unclosedOutline : Outline :=
  [(0, .element "div" none false), (1, .element "br" none false)]

theorem unclosedOutline_not_closed :
    unclosedOutline.isPlain = true ∧ WellIndented unclosedOutline.depths ∧
      unclosedOutline.isAllowed singleTags = true ∧
      (Forest.ofOutline unclosedOutline).singlesAreLeaves singleTags = true ∧
      (compile singleTags [("a", sourceText (unclosedOutline.lines "\t") true)]
        "a").output = "<div>\n\t<br>\n" ∧
      Sign.closes singleTags [] (Sign.all (compile singleTags
        [("a", sourceText (unclosedOutline.lines "\t") true)] "a").output) = false :=
  ⟨by decide, by decide, by decide, by decide +kernel, by decide +kernel, by decide +kernel⟩

end Document
end OutlineMarkup
