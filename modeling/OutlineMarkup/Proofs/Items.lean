import OutlineMarkup.Proofs.Assignments
import OutlineMarkup.Proofs.Templates

/-!
# Items

The lines of methods and loops: markup, or calls of methods, with references to parameters. A body
line is kept as it is written, and when it runs its references are filled and it is spelled anew.
-/

namespace OutlineMarkup
open List Text Markup Reference Arithmetic Template
variable {tag e u : Text} {k : Nat}

open Bool (and_eq_true)

open Method (isCall evaluate)

/-- Markup, or the call of a method with an optional list of arguments and an optional colon. -/
inductive Item (α : Type) where
  | markup (m : Markup α)
  | call (name : Text) (arguments : Option (List α)) (colon : Bool)
  deriving Repr, DecidableEq

/-- Items at their depths. -/
abbrev Items := List (Nat × Item Text)

/-- The lines of a method. -/
abbrev Body := List (Nat × Item Template)

namespace Item
variable {α β : Type} {w s v : Text} {q : Char} {items : List Text}

def map (f : α → β) : Item α → Item β
  | markup m => markup (m.map f)
  | call name arguments colon => call name (arguments.map (·.map f)) colon

def written : Item Text → Text
  | markup m => m.written
  | call name none colon => name ++ Markup.colonText colon
  | call name (some arguments) colon =>
    callText name [' '] arguments (Markup.colonText colon)

def markup? : Item α → Option (Markup α)
  | markup m => some m
  | call _ _ _ => none

def callee? : Item α → Option Text
  | markup _ => none
  | call name _ _ => some name

def isPlain : Item Text → Bool
  | markup m => m.isPlain
  | call name arguments _ => isCallName name && (arguments.getD []).all isBareWord

variable {i : Item Text} {a : Text}

def ReadAs (tag : Text) : Item Text → Prop
  | markup m => Spells tag m
  | call name arguments _ => Names tag ⟨name, arguments.getD []⟩

theorem ReadAs.calm (h : ReadAs tag i) : Calm tag := by
  match i, h with
  | markup (.element _ _ _), h => exact Names.calm h
  | markup (.text _), h => exact h.1
  | call _ _ _, h => exact Names.calm h

/-- How a line of a body is spelled when it runs. -/
def yielded : Item Text → Text
  | markup (.element name (some attributes) colon) =>
    if name.isName then callText name [] (attributes.map Markup.attributeText) []
    else (Markup.element name (some attributes) colon).written
  | call name (some arguments) _ => callText name [] arguments []
  | i => i.written

def yieldedEnd (e : Text) : Item Text → Text
  | markup (.element name (some _) _) => if name.isName then [] else e
  | call _ (some _) _ => []
  | _ => e

theorem yieldedEnd_lineEnd (he : LineEnd e) (i : Item Text) : LineEnd (i.yieldedEnd e) := by
  match i with
  | markup (.element name (some _) _) =>
    rw [yieldedEnd]
    split
    · exact .inl rfl
    · exact he
  | markup (.element _ none _) | markup (.text _) => exact he
  | call _ (some _) _ => exact .inl rfl
  | call _ none _ => exact he

theorem bareWord_calm (h : isBareWord w) : CalmItem w ∧ '$' ∉ w := by
  refine ⟨calmItem_of_isBareWord h, ?_⟩
  simp only [isBareWord, and_eq_true, all_eq_true] at h
  exact not_mem_of_all h.2 (by decide)

theorem readAs_written (h : i.isPlain) (hun : isUnreserved i.written) : ReadAs i.written i := by
  match i, h, hun with
  | markup m, h, hun => exact spells_written h hun
  | call name none colon, h, hun =>
    simp only [isPlain, and_eq_true] at h
    exact names_name (callName_of_isCallName h.1) colon hun
  | call name (some arguments) colon, h, hun =>
    simp only [isPlain, and_eq_true, Option.getD_some, all_eq_true] at h
    exact names_callText (callName_of_isCallName h.1) colon (by simp) hun fun p hp => bareWord_calm (h.2 p hp)

theorem readAs_yielded (h : i.isPlain) (hun : isUnreserved i.written) : ReadAs i.yielded i := by
  match i, h, hun with
  | markup (.element name (some attributes) colon), h, hun =>
    have hname := callName_of_isWritable (isWritable_of_isPlain h)
    rw [yielded]
    split
    · rw [written, written_some] at hun
      exact names_callText hname false (by simp)
        (isUnreserved_respell (by simp) (fun q hq => ⟨q, hq, [], by simp, rfl⟩) hun) (attributes_plain h)
    · exact readAs_written h hun
  | markup (.element name none colon), h, hun | markup (.text t), h, hun => exact readAs_written h hun
  | call name none colon, h, hun => exact readAs_written h hun
  | call name (some arguments) colon, h, hun =>
    simp only [isPlain, and_eq_true, Option.getD_some, all_eq_true] at h
    exact names_callText (callName_of_isCallName h.1) false (by simp)
      (isUnreserved_respell (by simp) (fun q hq => ⟨q, hq, [], by simp, rfl⟩) hun)
      fun p hp => bareWord_calm (h.2 p hp)

/-! ## Evaluating a line -/

theorem hasOperator_append (h : ∀ c ∈ a, isOperator c = false) :
    hasOperator q (a ++ s) = hasOperator q s := by
  induction a with
  | nil => rfl
  | cons c a ih =>
    rw [cons_append, hasOperator, h c mem_cons_self, ih (forall_mem_cons.mp h).2]
    rfl

theorem hasOperator_eq_false (h : ∀ c ∈ s, isOperator c = false) : hasOperator q s = false := by
  have hnil := hasOperator_append (q := q) (s := []) h
  rwa [append_nil] at hnil

theorem hasOperator_quoted (hv : '"' ∉ v) (hs : '"' ∉ s) (h : ∀ c ∈ s, isOperator c = false) :
    hasOperator '"' (v ++ '"' :: s) = false := by
  induction v with
  | nil =>
    rw [nil_append, hasOperator, hasOperator_eq_false h]
    rfl
  | cons c v ih =>
    have hv' : '"' ∉ v := fun hm => hv (.tail _ hm)
    have hodd : Arithmetic.evenAfter '"' (v ++ '"' :: s) = false := by
      simp [evenAfter, count_append, count_eq_zero.mpr hv', count_eq_zero.mpr hs]
    rw [cons_append, hasOperator, hodd, ih hv', Bool.and_false]
    rfl

theorem computePart_eq_self (h : hasOperator '"' s = false) : computePart s = .ok s := by
  rw [computePart, h]
  rfl

theorem isOperator_eq_false {p : Char → Bool} {c : Char} (hc : p c)
    (hp : ∀ d ∈ ['-', '+', '*', '/'], p d = false) : isOperator c = false :=
  eq_false_of_class (by simp [isOperator, or_assoc]) hc hp

theorem hasOperator_word (h : isBareWord w) : hasOperator '"' w = false := by
  simp only [isBareWord, and_eq_true, all_eq_true] at h
  exact hasOperator_eq_false fun c hc => isOperator_eq_false (h.2 c hc) (by decide)

theorem hasOperator_attributeText (ha : a.isAlphanumeric) (hv : v.all isValueChar) :
    hasOperator '"' (Markup.attributeText (a, v)) = false := by
  have hall := ((isAlphanumeric_iff a).mp ha).2
  have hquote : '"' ∉ v := not_mem_of_all (all_eq_true.mp hv) (by decide)
  have hcut : attributeText (a, v) = a ++ (['=', '"'] ++ (v ++ '"' :: [])) := by
    simp [attributeText]
  rw [hcut, hasOperator_append fun c hc => isOperator_eq_false (hall c hc) (by decide),
    hasOperator_append (by decide)]
  exact hasOperator_quoted hquote (by simp) (by simp)

theorem hasOperator_append_closed (ha : hasOperator '"' a = false) (hs : s.count '"' % 2 = 0) :
    hasOperator '"' (a ++ s) = Arithmetic.hasOperator '"' s := by
  induction a with
  | nil => rfl
  | cons c a ih =>
    rw [hasOperator, Bool.or_eq_false_iff] at ha
    have heven : evenAfter '"' (a ++ s) = Arithmetic.evenAfter '"' a := by
      simp only [evenAfter, count_append]
      congr 1
      omega
    rw [cons_append, hasOperator, heven, ha.1, ih ha.2]
    rfl

theorem hasOperator_join (hi : ∀ p ∈ items, hasOperator '"' p = false ∧ p.count '"' % 2 = 0)
    (hs : hasOperator '"' s = false ∧ s.count '"' % 2 = 0) :
    hasOperator '"' (Text.join [',', ' '] items ++ s) = false ∧
      (Text.join [',', ' '] items ++ s).count '"' % 2 = 0 := by
  induction items with
  | nil => exact hs
  | cons p items ih =>
    obtain ⟨hop, hquotes⟩ := hi p mem_cons_self
    cases items with
    | nil =>
      have hone : join [',', ' '] [p] = p := by simp [join]
      rw [hone, hasOperator_append_closed hop hs.2, count_append]
      exact ⟨hs.1, by omega⟩
    | cons q items =>
      have hcut : join [',', ' '] (p :: q :: items) ++ s =
          p ++ ([',', ' '] ++ (join [',', ' '] (q :: items) ++ s)) := by simp [join]
      obtain ⟨hrest, hcount⟩ := ih (forall_mem_cons.mp hi).2
      have hcount' : ([',', ' '] ++ (join [',', ' '] (q :: items) ++ s)).count '"' % 2 = 0 := by
        simpa [count_append] using hcount
      rw [hcut, hasOperator_append_closed hop hcount', hasOperator_append (by decide), count_append]
      exact ⟨hrest, by omega⟩

theorem isCall_callText {name b tail : Text} (hn : CallName name)
    (hnl : '\n' ∉ callText name b items tail) : isCall (callText name b items tail) = name.isName := by
  obtain ⟨c, r, rfl⟩ := exists_cons_of_ne_nil hn.ne_nil
  have htake : (callText (c :: r) b items tail).takeWhile isWordChar = c :: r :=
    takeWhile_word hn.chars (by simp; decide)
  have hdrop : (callText (c :: r) b items tail).dropWhile isWordChar =
      '(' :: (join (',' :: b) items ++ ')' :: tail) := by
    rw [callText, dropWhile_append_of_pos hn.chars]
    rfl
  have hrest : '\n' ∉ join (',' :: b) items ++ ')' :: tail := fun hm =>
    hnl (mem_append_right _ (.tail _ hm))
  have hline : (join (',' :: b) items ++ ')' :: tail).takeWhile (· != '\n') =
      join (',' :: b) items ++ ')' :: tail := by
    rw [takeWhile_eq_self_iff]
    intro x hx
    simpa using fun heq : x = '\n' => hrest (heq ▸ hx)
  rw [isCall, htake, hdrop]
  have hspace : (('(' :: (join (',' :: b) items ++ ')' :: tail) : Text).dropWhile (· == ' ')) =
      '(' :: (join (',' :: b) items ++ ')' :: tail) := rfl
  rw [hspace]
  have hclosing : hasChar (join (',' :: b) items ++ ')' :: tail) ')' := by
    rw [hasChar_iff]
    simp
  simp [hline, hclosing]

theorem isOperator_margin (hu : isUnit u) : ∀ c ∈ u.times k, isOperator c = false := by
  intro c hc
  rcases ((isUnit_iff u).mp hu).2 c (mem_times hc) with rfl | rfl <;> rfl

theorem isOperator_lineEnd (he : LineEnd e) : ∀ c ∈ e, isOperator c = false := by
  rcases he with rfl | rfl <;> decide

section Evaluate
variable {vars : Variables} {line u e name : Text} {k : Nat} {m : Markup Text} {items : List Text}

theorem evaluate_isCall (hs : Solid tag) (hc : Method.isCall tag) (hu : isUnit u) (he : LineEnd e)
    (hline : resolve vars line [] = .ok (sourceLine u k tag e)) : Method.evaluate vars line = (do
      let d ← Definition.read tag
      let attributes ← d.attributes.mapM computePart
      return u.times k ++ d.name ++ '(' :: join "," attributes ++ [')']) := by
  have htrim := hs.trim_sourceLine (k := k) hu he
  have hlead : (sourceLine u k tag e).takeWhile isBlank = u.times k :=
    takeWhile_append_solid (isBlank_of_mem_times hu) hs
  have hread : Definition.read (sourceLine u k tag e) = Definition.read tag := by
    rw [Definition.read, Definition.read, htrim, hs.trim_eq]
  rw [Method.evaluate, hline]
  change (if Method.isCall (sourceLine u k tag e).trim = true then _ else _) = _
  rw [htrim, hc, if_pos rfl, hread, hlead]

theorem evaluate_bare (hs : Solid tag) (hc : isCall tag = false)
    (ho : hasOperator '"' (sourceLine u k tag e) = false) (hu : isUnit u)
    (he : LineEnd e) (hline : resolve vars line [] = .ok (sourceLine u k tag e)) :
    evaluate vars line = .ok (sourceLine u k tag e) := by
  have htrim := hs.trim_sourceLine (k := k) hu he
  rw [evaluate, hline]
  change (if isCall (sourceLine u k tag e).trim then _
    else computePart (sourceLine u k tag e)) = _
  rw [htrim, hc]
  exact computePart_eq_self ho

theorem evaluate_name (hcall : CallName name) (colon : Bool) (hu : isUnit u) (he : LineEnd e)
    (hline : resolve vars line [] = .ok (sourceLine u k (name ++ colonText colon) e)) :
    evaluate vars line = .ok (sourceLine u k (name ++ colonText colon) e) := by
  refine evaluate_bare (solid_name hcall colon) ?_ ?_ hu he hline
  · have hdrop : (name ++ colonText colon).dropWhile isWordChar = colonText colon := by
      rw [dropWhile_append_of_pos hcall.chars]
      cases colon <;> rfl
    rw [isCall, hdrop]
    cases colon <;> simp [colonText]
  · refine hasOperator_eq_false fun c hc => ?_
    simp only [sourceLine, mem_append] at hc
    rcases hc with hc | (hc | hc) | hc
    · exact isOperator_margin hu c hc
    · exact isOperator_eq_false (hcall.chars c hc) (by decide)
    · rw [mem_colonText hc]
      rfl
    · exact isOperator_lineEnd he c hc

section Listed
variable (hn : CallName name) (colon : Bool) (hu : isUnit u) (he : LineEnd e)
  (hnl : '\n' ∉ callText name [' '] items (colonText colon))
  (hline : resolve vars line [] = .ok (sourceLine u k (callText name [' '] items (colonText colon)) e))
include hn hu he hnl hline

/-- A line with a list in parentheses is spelled anew, its items as they stand. -/
theorem evaluate_list (hname : name.isName) (hi : ∀ p ∈ items, Attributes.Simple p ∧ hasOperator '"' p = false) :
    evaluate vars line = .ok (sourceLine u k (callText name [] items []) []) := by
  rw [evaluate_isCall (solid_callText hn colon) ((isCall_callText hn hnl).trans hname) hu he hline,
    read_callText hn colon (by simp) fun p hp => (hi p hp).1]
  change (items.mapM computePart >>= _) = _
  rw [mapM_eq_ok_self fun p hp => computePart_eq_self (hi p hp).2]
  change Except.ok _ = Except.ok _
  simp [sourceLine, callText]

theorem evaluate_unnamed (hname : name.isName = false) (hi : ∀ p ∈ items, CalmItem p ∧ hasOperator '"' p = false) :
    evaluate vars line = .ok (sourceLine u k (callText name [' '] items (colonText colon)) e) := by
  refine evaluate_bare (solid_callText hn colon) ((isCall_callText hn hnl).trans hname) ?_ hu he hline
  have hcut : sourceLine u k (callText name [' '] items (colonText colon)) e =
      (u.times k ++ (name ++ ['('])) ++ (Text.join [',', ' '] items ++ ((')' :: colonText colon) ++ e)) := by
    simp [sourceLine, callText]
  have hstart : ∀ c ∈ u.times k ++ (name ++ ['(']), Arithmetic.isOperator c = false := by
    intro c hc
    simp only [mem_append, mem_singleton] at hc
    rcases hc with hc | hc | rfl
    · exact isOperator_margin hu c hc
    · exact isOperator_eq_false (hn.chars c hc) (by decide)
    · rfl
  have hend : Arithmetic.hasOperator '"' ((')' :: colonText colon) ++ e) = false ∧
      ((')' :: colonText colon) ++ e).count '"' % 2 = 0 := by
    cases colon <;> rcases he with rfl | rfl <;> decide
  rw [hcut, hasOperator_append hstart]
  exact (hasOperator_join (fun p hp => ⟨(hi p hp).2, (hi p hp).1.simple.quotes⟩) hend).1

end Listed

theorem evaluate_text {t : Text} (ht : (text t).isWritable) (hu : isUnit u) (he : LineEnd e)
    (hline : resolve vars line [] = .ok (sourceLine u k ('"' :: t ++ ['"']) e)) :
    evaluate vars line = .ok (sourceLine u k ('"' :: t ++ ['"']) e) := by
  have hquote : '"' ∉ t := not_mem_of_all (all_eq_true.mp ht) (by decide)
  refine evaluate_bare ?_ rfl ?_ hu he hline
  · exact ⟨⟨'"', rfl, rfl⟩, ⟨'"', by simp [getLast?_cons], rfl⟩⟩
  · have hcut : sourceLine u k ('"' :: t ++ ['"']) e = u.times k ++ (['"'] ++ (t ++ '"' :: e)) := by
      simp [sourceLine]
    rw [hcut, hasOperator_append (isOperator_margin hu), hasOperator_append (by decide)]
    exact hasOperator_quoted hquote (he.not_mem (by decide)) (isOperator_lineEnd he)

theorem evaluate_markup (hm : m.isWritable) (hu : isUnit u) (he : LineEnd e)
    (hline : resolve vars line [] = .ok (sourceLine u k m.written e)) : evaluate vars line =
      .ok (sourceLine u k (markup m).yielded ((markup m).yieldedEnd e)) := by
  match m, hm, hline with
  | .text t, hm, hline => exact evaluate_text hm hu he hline
  | .element name none colon, hm, hline =>
    exact evaluate_name (callName_of_isWritable hm) colon hu he hline
  | .element name (some attributes) colon, hm, hline =>
    have hcall := callName_of_isWritable hm
    have hsteady := (steady_written hm).1
    have hitems : ∀ p ∈ attributes.map attributeText, CalmItem p ∧ hasOperator '"' p = false := by
      intro p hp
      refine ⟨attributes_calm hm p hp, ?_⟩
      obtain ⟨⟨a, v⟩, hav, rfl⟩ := mem_map.mp hp
      simp only [isWritable, isMadeOf, Option.getD_some, and_eq_true, all_eq_true] at hm
      exact hasOperator_attributeText (hm.2 _ hav).1 (all_eq_true.mpr (hm.2 _ hav).2)
    rw [written_some] at hline hsteady
    rw [yielded, yieldedEnd]
    split
    · rename_i hname
      exact evaluate_list hcall colon hu he (hsteady.not_mem (by simp)) hline hname
        fun p hp => ⟨(hitems p hp).1.simple, (hitems p hp).2⟩
    · rename_i hname
      rw [written_some]
      exact evaluate_unnamed hcall colon hu he (hsteady.not_mem (by simp)) hline (Bool.eq_false_iff.mpr hname) hitems

theorem steady_yielded (hm : m.isWritable) : Steady (markup m).yielded := by
  match m, hm with
  | .text t, hm | .element name none colon, hm => exact (steady_written hm).1
  | .element name (some attributes) colon, hm =>
    rw [yielded]
    split
    · exact steady_callText (callName_of_isWritable hm) false (by simp) fun p hp => (attributes_calm hm p hp).piece
    · exact (steady_written hm).1

theorem evaluate_shaped {i : Item Text} (hi : i.isPlain) (hun : isUnreserved i.written)
    (hu : isUnit u) (he : LineEnd e) (hline : resolve vars line [] = .ok (sourceLine u k i.written e)) :
    evaluate vars line = .ok (sourceLine u k i.yielded (i.yieldedEnd e)) := by
  match i, hi, hun, hline with
  | markup m, hi, _, hline => exact evaluate_markup (isWritable_of_isPlain hi) hu he hline
  | call name none colon, hi, _, hline =>
    simp only [isPlain, and_eq_true] at hi
    exact evaluate_name (callName_of_isCallName hi.1) colon hu he hline
  | call name (some arguments) colon, hi, hun, hline =>
    have hcalm : Calm (callText name [' '] arguments (colonText colon)) := ReadAs.calm (readAs_written hi hun)
    simp only [isPlain, and_eq_true, Option.getD_some, all_eq_true] at hi
    exact evaluate_list (callName_of_isCallName hi.1) colon hu he (hcalm.not_mem (by simp)) hline
      (isName_of_isCallName hi.1)
      fun p hp => ⟨(calmItem_of_isBareWord (hi.2 p hp)).simple, hasOperator_word (hi.2 p hp)⟩

end Evaluate
end Item

/-! ## References in items -/

/-- References are to the given names and touch no word, and the characters are of a kind. -/
def Template.isMadeOf (names : List Text) (kind : Char → Bool) (t : Template) : Bool :=
  t.isSeparated && t.all fun
    | .char c => kind c
    | .ref n => names.contains n

def callTemplate (name : Text) (items : List Template) (tail : Text) : Template :=
  (name ++ ['(']).map .char ++
    (List.intercalate ([',', ' '].map .char) items ++ (')' :: tail).map .char)

namespace Markup

def attributeTemplate (a : Text × Template) : Template :=
  (a.1 ++ ['=', '"']).map .char ++ (a.2 ++ ['"'].map .char)

def template : Markup Template → Template
  | element name none colon => (name ++ colonText colon).map .char
  | element name (some attributes) colon =>
    callTemplate name (attributes.map attributeTemplate) (colonText colon)
  | text t => ['"'].map .char ++ (t ++ ['"'].map .char)

end Markup

namespace Item

def template : Item Template → Template
  | markup m => m.template
  | call name none colon => (name ++ Markup.colonText colon).map .char
  | call name (some arguments) colon => callTemplate name arguments (Markup.colonText colon)

/-- Markup with references to the given names, or a call with such arguments. -/
def isSound (names : List Text) : Item Template → Bool
  | markup m => m.isMadeOf (·.isMadeOf names isPlainChar)
  | call name arguments _ =>
    isCallName name &&
      (arguments.getD []).all fun t => !t.isEmpty && t.isMadeOf names Text.isWordChar

end Item

/-- A reading of templates, character by character. -/
structure Reading (h : Template → Text) : Prop where
  append : ∀ s t, h (s ++ t) = h s ++ h t
  chars : ∀ w : Text, h (w.map .char) = w

namespace Reading
variable {h : Template → Text}

theorem source : Reading source := ⟨source_append, source_chars⟩

theorem fill (env : Text → Text) : Reading (fill env) := ⟨fill_append env, fill_chars env⟩

theorem intercalate (hh : Reading h) (sep : Text) (items : List Template) :
    h (List.intercalate (sep.map .char) items) = join sep (items.map h) := by
  induction items with
  | nil => exact hh.chars []
  | cons t items ih =>
    cases items with
    | nil => simp [join]
    | cons s items =>
      have hcut : List.intercalate (sep.map .char) (t :: s :: items) =
          t ++ (sep.map .char ++ List.intercalate (sep.map .char) (s :: items)) := by simp
      rw [hcut, hh.append, hh.append, hh.chars, ih]
      simp [join]

theorem callTemplate (hh : Reading h) (name : Text) (items : List Template) (tail : Text) :
    h (OutlineMarkup.callTemplate name items tail) = callText name [' '] (items.map h) tail := by
  rw [OutlineMarkup.callTemplate, hh.append, hh.append, hh.chars, hh.chars,
    hh.intercalate [',', ' '], callText]
  simp

theorem template (hh : Reading h) (i : Item Template) : h i.template = (i.map h).written := by
  match i with
  | .markup (.text t) =>
    change h (['"'].map .char ++ (t ++ ['"'].map .char)) = _
    rw [hh.append, hh.append, hh.chars]
    rfl
  | .markup (.element name none colon) => exact hh.chars _
  | .markup (.element name (some attributes) colon) =>
    have hattribute : ∀ a : Text × Template, h (attributeTemplate a) = attributeText (a.1, h a.2) := by
      intro a
      rw [attributeTemplate, hh.append, hh.append, hh.chars, hh.chars, attributeText]
      simp
    change h (OutlineMarkup.callTemplate name (attributes.map attributeTemplate)
      (colonText colon)) = _
    rw [hh.callTemplate]
    change _ = (element name (some (attributes.map fun a => (a.1, h a.2))) colon).written
    rw [written_some, map_map, map_map]
    congr 1
    exact map_congr_left fun a _ => hattribute a
  | .call name none colon => exact hh.chars _
  | .call name (some arguments) colon => exact hh.callTemplate _ _ _

end Reading

namespace Template
variable {names : List Text} {s t : Template} {w : Text}

/-- A template that may stand in a line. -/
structure Sound (names : List Text) (t : Template) : Prop where
  separated : t.isSeparated = true
  chars : ∀ c, .char c ∈ t → c ≠ '$' ∧ c ≠ '\\'
  refs : ∀ n, .ref n ∈ t → n ∈ names

theorem isSeparated_append (hs : s.isSeparated) (ht : t.isSeparated)
    (hstop : t.stopsWord) : (s ++ t).isSeparated := by
  induction s with
  | nil => exact ht
  | cons x s ih =>
    cases x with
    | char c => exact ih hs
    | ref n =>
      rw [isSeparated, and_eq_true] at hs
      rw [cons_append, isSeparated, and_eq_true]
      refine ⟨?_, ih hs.2⟩
      rcases s with _ | ⟨c | m, s⟩
      · exact hstop
      · exact hs.1
      · cases hs.1

theorem Sound.append (hs : Sound names s) (ht : Sound names t) (hstop : t.stopsWord) :
    Sound names (s ++ t) := by
  refine ⟨isSeparated_append hs.separated ht.separated hstop, fun c hc => ?_, fun n hn => ?_⟩
  · rcases mem_append.mp hc with hc | hc
    · exact hs.chars c hc
    · exact ht.chars c hc
  · rcases mem_append.mp hn with hn | hn
    · exact hs.refs n hn
    · exact ht.refs n hn

theorem Sound.chars_append (hd : '$' ∉ w) (hb : '\\' ∉ w) (ht : Sound names t) :
    Sound names (w.map .char ++ t) := by
  refine ⟨isSeparated_chars ht.separated, fun c hc => ?_, fun n hn => ?_⟩
  · rcases mem_append.mp hc with hc | hc
    · obtain ⟨d, hmem, heq⟩ := mem_map.mp hc
      cases heq
      exact ⟨fun e => hd (e ▸ hmem), fun e => hb (e ▸ hmem)⟩
    · exact ht.chars c hc
  · rcases mem_append.mp hn with hn | hn
    · obtain ⟨d, _, heq⟩ := mem_map.mp hn
      cases heq
    · exact ht.refs n hn

theorem Sound.nil : Sound names [] :=
  ⟨rfl, fun _ h => absurd h not_mem_nil, fun _ h => absurd h not_mem_nil⟩

theorem Sound.of_chars (hd : '$' ∉ w) (hb : '\\' ∉ w) : Sound names (w.map .char) := by
  have h : Sound names (w.map .char ++ []) := Sound.chars_append hd hb Sound.nil
  rwa [append_nil] at h

theorem Sound.of_isMadeOf {kind : Char → Bool} (h : t.isMadeOf names kind)
    (hd : kind '$' = false) (hb : kind '\\' = false) : Sound names t := by
  rw [isMadeOf, and_eq_true, all_eq_true] at h
  refine ⟨h.1, fun c hc => ?_, fun n hn => ?_⟩
  · have hk : kind c := h.2 _ hc
    constructor <;> rintro rfl
    · rw [hd] at hk
      exact Bool.noConfusion hk
    · rw [hb] at hk
      exact Bool.noConfusion hk
  · simpa using h.2 _ hn

theorem Sound.intercalate {items : List Template} (hi : ∀ s ∈ items, Sound names s)
    (ht : Sound names t) (hstop : t.stopsWord) :
    Sound names (List.intercalate ([',', ' '].map .char) items ++ t) := by
  induction items with
  | nil => exact ht
  | cons s items ih =>
    have hs := hi s mem_cons_self
    cases items with
    | nil =>
      have hone : List.intercalate ([',', ' '].map .char) [s] = s := by simp
      rw [hone]
      exact hs.append ht hstop
    | cons r items =>
      have hrest := ih (forall_mem_cons.mp hi).2
      have hcut : List.intercalate ([',', ' '].map .char) (s :: r :: items) ++ t =
          s ++ ([',', ' '].map .char ++
            (List.intercalate ([',', ' '].map .char) (r :: items) ++ t)) := by simp
      rw [hcut]
      exact hs.append (Sound.chars_append (by decide) (by decide) hrest) rfl

theorem Sound.clean (h : Sound names t) (hnames : ∀ n ∈ names, n.isName) : Clean t :=
  ⟨h.chars, fun n hn => hnames n (h.refs n (mem_names.mp hn)), h.separated⟩

end Template

namespace Item
variable {names : List Text} {name : Text} {t : Template} {kind : Char → Bool}

theorem sound_callTemplate {items : List Template} (hn : CallName name) (colon : Bool)
    (hi : ∀ s ∈ items, Sound names s) : Sound names (callTemplate name items (colonText colon)) := by
  refine Sound.chars_append ?_ ?_ (Sound.intercalate hi ?_ rfl)
  · simp [hn.not_mem (c := '$') (by decide)]
  · simp [hn.not_mem (c := '\\') (by decide)]
  · refine Sound.of_chars ?_ ?_ <;> cases colon <;> decide

theorem sound_name (hcall : CallName name) (colon : Bool) :
    Sound names ((name ++ colonText colon).map .char) := by
  refine Sound.of_chars ?_ ?_
  · cases colon <;> simp [colonText, hcall.not_mem (c := '$') (by decide)]
  · cases colon <;> simp [colonText, hcall.not_mem (c := '\\') (by decide)]

theorem sound_quoted {w : Text} (hd : '$' ∉ w) (hb : '\\' ∉ w) (ht : Sound names t) :
    Sound names (w.map .char ++ (t ++ ['"'].map .char)) :=
  Sound.chars_append hd hb (ht.append (Sound.of_chars (by decide) (by decide)) rfl)

variable {i : Item Template} {env : Text → Text}

theorem sound_template (h : i.isSound names) : Sound names i.template := by
  match i, h with
  | markup (.text t), h =>
    exact sound_quoted (by decide) (by decide) (Sound.of_isMadeOf h rfl rfl)
  | markup (.element name none colon), h =>
    simp only [isSound, Markup.isMadeOf, and_eq_true] at h
    exact sound_name (callName_of_isAlphanumeric h.1) colon
  | markup (.element name (some attributes) colon), h =>
    simp only [isSound, Markup.isMadeOf, Option.getD_some, and_eq_true, all_eq_true] at h
    refine sound_callTemplate (callName_of_isAlphanumeric h.1) colon fun s hs => ?_
    obtain ⟨⟨a, t⟩, hat, rfl⟩ := mem_map.mp hs
    have ha := callName_of_isAlphanumeric (h.2 _ hat).1
    refine sound_quoted ?_ ?_ (Sound.of_isMadeOf (h.2 _ hat).2 rfl rfl)
    · simp [ha.not_mem (c := '$') (by decide)]
    · simp [ha.not_mem (c := '\\') (by decide)]
  | call name none colon, h =>
    simp only [isSound, and_eq_true] at h
    exact sound_name (callName_of_isCallName h.1) colon
  | call name (some arguments) colon, h =>
    simp only [isSound, Option.getD_some, and_eq_true, all_eq_true] at h
    exact sound_callTemplate (callName_of_isCallName h.1) colon fun s hs =>
      Sound.of_isMadeOf (h.2 s hs).2 rfl rfl

/-! ## Running a line -/

theorem all_source (h : t.isMadeOf names kind)
    (hnames : ∀ n ∈ names, n.isName) : ∀ c ∈ t.source, kind c ∨ c = '$' ∨ isWordChar c := by
  rw [Template.isMadeOf, and_eq_true, all_eq_true] at h
  intro c hc
  obtain ⟨x, hx, hc⟩ := mem_flatMap.mp hc
  cases x with
  | char d =>
    obtain rfl := mem_singleton.mp hc
    exact .inl (h.2 _ hx)
  | ref n =>
    have hn : n ∈ names := by simpa using h.2 _ hx
    obtain ⟨_, _, _, _, hall⟩ := Template.isName_iff.mp (hnames n hn)
    rcases mem_cons.mp hc with rfl | hc
    · exact .inr (.inl rfl)
    · exact .inr (.inr (hall c hc))

theorem all_fill (h : t.isMadeOf names kind) (hkind : ∀ c, isWordChar c → kind c)
    (henv : ∀ n ∈ names, isBareWord (env n)) : (t.fill env).all kind := by
  rw [Template.isMadeOf, and_eq_true, all_eq_true] at h
  rw [all_eq_true]
  intro c hc
  obtain ⟨x, hx, hc⟩ := mem_flatMap.mp hc
  cases x with
  | char d =>
    obtain rfl := mem_singleton.mp hc
    exact h.2 _ hx
  | ref n =>
    have hn := henv n (by simpa using h.2 _ hx)
    simp only [isBareWord, and_eq_true, all_eq_true] at hn
    exact hkind c (hn.2 c hc)

theorem isPlainChar_of_isWordChar {c : Char} (h : isWordChar c) : isPlainChar c := by
  simp only [isWordChar, Bool.or_eq_true] at h
  rcases h with h | h <;> simp [isPlainChar, h]

theorem isMadeOf_map {α β : Type} {f : α → β} {p : α → Bool} {q : β → Bool}
    (h : ∀ a, p a → q (f a)) {m : Markup α} (hm : m.isMadeOf p) : (m.map f).isMadeOf q := by
  match m, hm with
  | .text t, hm => exact h t hm
  | .element name none colon, hm =>
    simp only [Markup.isMadeOf, and_eq_true] at hm
    simp [Markup.map, Markup.isMadeOf, hm.1]
  | .element name (some attributes) colon, hm =>
    simp only [Markup.isMadeOf, Option.getD_some, and_eq_true, all_eq_true] at hm
    simp only [Markup.map, Markup.isMadeOf, Option.map_some, Option.getD_some, and_eq_true,
      all_eq_true, hm.1, true_and]
    intro b hb
    obtain ⟨a, ha, rfl⟩ := mem_map.mp hb
    exact ⟨(hm.2 a ha).1, h _ (hm.2 a ha).2⟩

theorem fill_ne_nil (hne : t.isEmpty = false) (henv : ∀ n ∈ t.names, env n ≠ []) : t.fill env ≠ [] := by
  match t, hne with
  | .char c :: t, _ => simp [fill, Slot.fill]
  | .ref n :: t, _ =>
    have hn := henv n mem_cons_self
    simp [fill, Slot.fill, hn]

theorem isMadeOf_fill {m : Markup Template}
    (h : m.isMadeOf (·.isMadeOf names isPlainChar)) (henv : ∀ n ∈ names, isBareWord (env n)) :
    (m.map (fill env)).isMadeOf (·.all isPlainChar) := by
  have hfill : ∀ t : Template, t.isMadeOf names isPlainChar → (t.fill env).all isPlainChar :=
    fun t ht => all_fill ht (fun _ => isPlainChar_of_isWordChar) henv
  exact isMadeOf_map (f := fill env) (q := (·.all isPlainChar)) hfill h

theorem isPlain_fill (h : i.isSound names)
    (henv : ∀ n ∈ names, isBareWord (env n)) : (i.map (fill env)).isPlain := by
  cases i with
  | markup m => exact isMadeOf_fill h henv
  | call name arguments colon =>
    simp only [isSound, and_eq_true, all_eq_true] at h
    simp only [map, isPlain, and_eq_true, h.1, true_and, all_eq_true]
    cases arguments with
    | none => simp
    | some arguments =>
      intro w hw
      obtain ⟨t, ht, rfl⟩ := mem_map.mp hw
      obtain ⟨hne, hmade⟩ := h.2 t ht
      have hsound := Sound.of_isMadeOf hmade rfl rfl
      have hnil : t.fill env ≠ [] := fill_ne_nil (by simpa using hne) fun n hn => by
        have := henv n (hsound.refs n (mem_names.mp hn))
        simp only [isBareWord, and_eq_true, Bool.not_eq_true', isEmpty_eq_false_iff] at this
        exact this.1
      simp only [isBareWord, and_eq_true, Bool.not_eq_true', isEmpty_eq_false_iff]
      exact ⟨hnil, all_fill hmade (fun c hc => hc) henv⟩

theorem calm_source (h : i.isSound names) (hnames : ∀ n ∈ names, n.isName)
    (hun : isUnreserved (i.map source).written) : Calm (i.map source).written := by
  rcases i with m | ⟨name, _ | arguments, colon⟩
  · have hsource : ∀ t : Template, t.isMadeOf names isPlainChar → t.source.all isValueChar := by
      intro t ht
      rw [all_eq_true]
      intro c hc
      rcases all_source ht hnames c hc with hc | rfl | hc
      · simp [isValueChar, hc]
      · rfl
      · simp [isValueChar, isPlainChar_of_isWordChar hc]
    exact calm_written (isMadeOf_map hsource h) hun
  · simp only [isSound, and_eq_true] at h
    exact calm_name (callName_of_isCallName h.1) colon hun
  · simp only [isSound, Option.getD_some, and_eq_true, all_eq_true] at h
    refine calm_callText (callName_of_isCallName h.1) colon (by simp) (fun p hp => ?_) hun
    obtain ⟨t, ht, rfl⟩ := mem_map.mp hp
    obtain ⟨hne, hmade⟩ := h.2 t ht
    refine (calmItem_of_forall ?_ fun c hc => ?_).piece
    · rcases t with _ | ⟨c | n, t⟩
      · cases hne
      · simp [source, Slot.source]
      · simp [source, Slot.source]
    · rcases all_source hmade hnames c hc with hc | rfl | hc
      · simp [hc]
      · rfl
      · simp [hc]

theorem runLine_source {vars : Variables} (h : i.isSound names) (hnames : ∀ n ∈ names, n.isName)
    (hvars : ∀ n ∈ names, vars.get? ('$' :: n) = some (env n)) (henv : ∀ n ∈ names, isBareWord (env n))
    (hsource : isUnreserved (i.map source).written) (hfill : isUnreserved (i.map (fill env)).written)
    (hu : isUnit u) (he : LineEnd e) {l : BodyLine} (hverbatim : l.verbatim = false)
    (htext : l.text = sourceLine u k (i.map source).written e) : Method.runLine vars l =
      .ok (some (sourceLine u k (i.map (fill env)).yielded ((i.map (fill env)).yieldedEnd e)), vars) := by
  have hshaped := isPlain_fill h henv
  have hcalm : Calm (i.map (fill env)).written := ReadAs.calm (readAs_written hshaped hfill)
  -- The whole line, blanks and line feed included, is one template.
  let line : Template := (u.times k).map .char ++ (i.template ++ e.map .char)
  have hread : ∀ {f : Template → Text}, Reading f → f line = sourceLine u k (i.map f).written e := by
    intro f hf
    rw [hf.append, hf.append, hf.chars, hf.chars, hf.template]
    rfl
  have hsound : Sound names line := by
    refine Sound.chars_append (not_mem_times hu rfl) (not_mem_times hu rfl)
      ((sound_template h).append (Sound.of_chars (he.not_mem (by decide))
        (he.not_mem (by decide))) ?_)
    rcases he with rfl | rfl <;> rfl
  have hmem : ∀ n ∈ line.names, n ∈ names := fun n hn => hsound.refs n (mem_names.mp hn)
  have hresolve := (hsound.clean hnames).resolve_source (fun n hn => hvars n (hmem n hn))
    (fun n hn c hc => by
      have hword := henv n (hmem n hn)
      simp only [isBareWord, and_eq_true, all_eq_true] at hword
      exact ⟨ne_of_class (hword.2 c hc) (by decide), ne_of_class (hword.2 c hc) (by decide)⟩)
    (by rw [hread (Reading.fill env)]; exact hcalm.not_mem_sourceLine hu he (by simp))
  rw [hread Reading.source, hread (Reading.fill env)] at hresolve
  have hsplit : l.text.split Assignment.sign = [l.text] :=
    split_eq_singleton (htext ▸ (calm_source h hnames hsource).hasSign_sourceLine hu he)
  rw [Method.runLine, hverbatim, hsplit, htext]
  change (evaluate vars _ >>= fun line => _) = _
  rw [evaluate_shaped hshaped hfill hu he hresolve]
  rfl

end Item

/-! ## Lines without references -/

namespace Item

def literal (i : Item Text) : Item Template := i.map (List.map Slot.char)

theorem map_literal {f : Template → Text} (hf : ∀ w : Text, f (w.map .char) = w) (i : Item Text) :
    i.literal.map f = i := by
  match i with
  | .markup (.text t) => simp [literal, map, Markup.map, hf]
  | .markup (.element name none colon) => rfl
  | .markup (.element name (some attributes) colon) =>
    simp [literal, map, Markup.map, hf, Function.comp_def]
  | .call name none colon => rfl
  | .call name (some arguments) colon => simp [literal, map, hf, Function.comp_def]

theorem source_literal (i : Item Text) : i.literal.map source = i := map_literal source_chars i

theorem fill_literal (env : Text → Text) (i : Item Text) : i.literal.map (fill env) = i :=
  map_literal (fill_chars env) i

theorem isMadeOf_chars (names : List Text) {kind : Char → Bool} {w : Text} (h : w.all kind) :
    Template.isMadeOf names kind (w.map .char) := by
  have hseparated := Template.isSeparated_chars (w := w) (t := []) rfl
  rw [append_nil] at hseparated
  rw [Template.isMadeOf, hseparated, Bool.true_and, all_map]
  exact h

theorem isSound_literal (names : List Text) {i : Item Text} (h : i.isPlain) :
    i.literal.isSound names := by
  cases i with
  | markup m => exact Item.isMadeOf_map (fun w hw => isMadeOf_chars names hw) h
  | call name arguments colon =>
    rw [isPlain, and_eq_true, all_eq_true] at h
    rw [literal, map, isSound, h.1, Bool.true_and, all_eq_true]
    intro t ht
    cases arguments with
    | none => cases ht
    | some arguments =>
      obtain ⟨w, hw, rfl⟩ := mem_map.mp ht
      have hword := h.2 w hw
      rw [isBareWord, and_eq_true] at hword
      rw [and_eq_true, isEmpty_map]
      exact ⟨hword.1, isMadeOf_chars names hword.2⟩

end Item

/-! ## Adding a line -/

namespace Steady
variable {u tag e : Text} {k : Nat}

theorem assignment_expand (h : Steady tag) (hbalanced : tag.count '(' = tag.count ')') (hu : isUnit u)
    (he : LineEnd e) : Assignment.expand (sourceLine u k tag e) = sourceLine u k tag e := by
  have hsigns : ∀ x ∈ Assignment.operators, x.2.isAlphanum = false := by decide
  have hcount : (sourceLine u k tag e).count '(' = (sourceLine u k tag e).count ')' := by
    have hzero : ∀ c : Char, isBlank c = false → c ≠ '\n' → (sourceLine u k tag e).count c = tag.count c := by
      intro c hb hn
      rw [sourceLine, count_append, count_append,
        count_eq_zero.mpr (not_mem_times hu hb), count_eq_zero.mpr (he.not_mem hn)]
      omega
    rw [hzero _ rfl (by decide), hzero _ rfl (by decide), hbalanced]
  rw [Assignment.expand_eq, Assignment.written_of_has _ fun x hx => Assignment.has_operator_eq_false hx
    ((h.equals_sourceLine hu he).has_eq_false (hsigns x hx)), hcount, if_neg (Nat.lt_irrefl _)]

end Steady

theorem Calm.addLine (h : Calm tag) (hu : isUnit u) (he : LineEnd e)
    (m : Method) (marked : List Text) : m.addLine (sourceLine u k tag e) marked =
      { m with lines := m.lines ++ [⟨false, sourceLine u k tag e, marked⟩] } := by
  rw [Method.addLine, h.assignment_expand h.balanced hu he, cut?_eq_none (h.hasSign_sourceLine hu he)]

end OutlineMarkup
