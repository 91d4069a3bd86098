import OutlineMarkup.Proofs.Items
import OutlineMarkup.Proofs.Substitution

/-!
# Statements

The lines of a method that may refer to any variables and assign to them. Whatever plain values the
variables have, a line of markup or a call yields a line that assigns nothing, and an assignment yields
no line at all.
-/

namespace OutlineMarkup
open List Text Markup Reference Template Arithmetic Assignment Bool Method
variable {value s : Text} {c : Char}

/-- All values are made of letters, digits, spaces, `_` and `-`. -/
def Variables.ArePlain (vars : Variables) : Prop := ∀ p ∈ vars, p.2.all isPlainChar = true

theorem Variables.ArePlain.get? {vars : Variables} (h : vars.ArePlain) {name : Text}
    (hget : Table.get? vars name = some value) : value.all isPlainChar := by
  induction vars with
  | nil => cases hget
  | cons p vars ih =>
    obtain ⟨key, v⟩ := p
    rw [Table.get?] at hget
    split at hget
    · cases hget
      exact h _ mem_cons_self
    · exact ih (forall_mem_cons.mp h).2 hget

/-! ## Replacing variables between separators -/

/-- A change of text that leaves alone what stands between references. -/
structure Refilling (f : Text → Text) : Prop where
  append : ∀ {c : Char}, Template.isSeparator c = true → ∀ w r, f (w ++ c :: r) = f w ++ c :: f r
  fixed : ∀ {s : Text}, '$' ∉ s → f s = s
  chars : ∀ {s : Text} {c : Char}, c ∈ f s → c ∈ s ∨ isPlainChar c = true

namespace Refilling
variable {f g : Text → Text}

theorem id : Refilling id := ⟨fun _ _ _ => rfl, fun _ => rfl, .inl⟩

theorem comp (hg : Refilling g) (hf : Refilling f) : Refilling (g ∘ f) := by
  refine ⟨fun hc w r => ?_, fun {s} hs => ?_, fun hc => ?_⟩
  · simp [hf.append hc, hg.append hc]
  · rw [Function.comp_apply, hf.fixed hs, hg.fixed hs]
  · rcases hg.chars hc with hc | hc
    · exact hf.chars hc
    · exact .inr hc

/-- The references to one variable are filled with a plain value. -/
theorem fillIn (n : Text) (hv : value.all isPlainChar) :
    Refilling fun s => ((slots s).fillIn [n] fun _ => value).source := by
  refine ⟨fun hc w r => ?_, fun {s} hs => ?_, fun {s c} hc => ?_⟩
  · rw [slots_append hc, fillIn_append, source_append]
    rfl
  · have hnames : (slots s).names = [] :=
      map_eq_nil_iff.mp ((all_eq_names s).symm.trans (Compile.allFrom_eq_nil hs none))
    have hfill : ∀ L, ((slots s).fillIn L fun _ => value).source = (slots s).fill fun _ => value :=
      fun L => source_fillIn (by simp [hnames])
    rw [hfill, ← hfill [], fillIn_nil, source_slots]
  · obtain ⟨x, hx, hc⟩ := mem_flatMap.mp hc
    rcases mem_fillIn hx with hx | ⟨_, _, d, hd, rfl⟩
    · have hs : c ∈ (slots s).source := mem_flatMap.mpr ⟨x, hx, hc⟩
      rw [source_slots] at hs
      exact .inl hs
    · rw [mem_singleton.mp hc]
      exact .inr (all_eq_true.mp hv d hd)

variable (hf : Refilling f)
include hf

theorem not_mem (hs : c ∉ s) (hc : isPlainChar c = false) : c ∉ f s := by
  intro hm
  rcases hf.chars hm with hm | hm
  · exact hs hm
  · rw [hc] at hm
    exact Bool.noConfusion hm

theorem values (hs : s.all isValueChar) : (f s).all isValueChar := by
  rw [all_eq_true] at hs ⊢
  intro c hc
  rcases hf.chars hc with hc | hc
  · exact hs c hc
  · simp [isValueChar, hc]

theorem blanks_append {w : Text} (hw : ∀ c ∈ w, isBlank c) (s : Text) : f (w ++ s) = w ++ f s := by
  induction w with
  | nil => rfl
  | cons c w ih =>
    have hblank := hw c mem_cons_self
    have hsep : isSeparator c := by
      simp only [isBlank, or_eq_true, beq_iff_eq] at hblank
      rcases hblank with ((((rfl | rfl) | rfl) | rfl) | rfl) | rfl <;> decide
    have hone : f ([] ++ c :: (w ++ s)) = f [] ++ c :: f (w ++ s) := hf.append hsep [] (w ++ s)
    rw [hf.fixed not_mem_nil, ih (forall_mem_cons.mp hw).2] at hone
    exact hone

theorem sourceLine {u e : Text} (hu : isUnit u) (he : LineEnd e) (k : Nat) (tag : Text) :
    f (sourceLine u k tag e) = OutlineMarkup.sourceLine u k (f tag) e := by
  rw [OutlineMarkup.sourceLine, hf.blanks_append (isBlank_of_mem_times hu)]
  rcases he with rfl | rfl
  · simp [OutlineMarkup.sourceLine]
  · rw [hf.append (by decide), hf.fixed not_mem_nil]
    rfl

theorem list {tail : Text} (ht : '$' ∉ tail) (items : List Text) :
    f (join [',', ' '] items ++ ')' :: tail) = join [',', ' '] (items.map f) ++ ')' :: tail := by
  induction items with
  | nil =>
    have hend := hf.append (c := ')') (by decide) [] tail
    rw [hf.fixed not_mem_nil, hf.fixed ht] at hend
    exact hend
  | cons p items ih =>
    cases items with
    | nil =>
      have hone : ∀ p : Text, join [',', ' '] [p] = p := fun p => by simp [join]
      rw [hone, hf.append (by decide), hf.fixed ht, map_cons, map_nil, hone]
    | cons q items =>
      have hcut : ∀ (p q : Text) (items : List Text) (s : Text), join [',', ' '] (p :: q :: items) ++ s =
            p ++ ',' :: ([] ++ ' ' :: (join [',', ' '] (q :: items) ++ s)) := by
        intro p q items s
        simp [join]
      rw [hcut, hf.append (by decide), hf.append (by decide),
        hf.fixed not_mem_nil, ih, map_cons, map_cons, map_cons, hcut]

theorem callText {name tail : Text} (hn : CallName name) (ht : '$' ∉ tail)
    (items : List Text) :
    f (callText name [' '] items tail) = OutlineMarkup.callText name [' '] (items.map f) tail := by
  rw [OutlineMarkup.callText, hf.append (by decide), hf.fixed (hn.not_mem (by decide)),
    hf.list ht]
  rfl

theorem name {name : Text} (hn : CallName name) (colon : Bool) :
    f (name ++ colonText colon) = name ++ colonText colon :=
  hf.fixed (not_mem_name hn colon (by decide) (by decide))

theorem attributeText {a : Text} (ha : a.isAlphanumeric) (v : Text) :
    f (Markup.attributeText (a, v)) = Markup.attributeText (a, f v) := by
  have hname := (callName_of_isAlphanumeric ha).not_mem (c := '$') (by decide)
  have hcut : ∀ v : Text, Markup.attributeText (a, v) = a ++ '=' :: ([] ++ '"' :: (v ++ '"' :: [])) := by
    intro v
    simp [Markup.attributeText]
  rw [hcut, hcut, hf.append (by decide), hf.append (by decide),
    hf.append (by decide), hf.fixed not_mem_nil, hf.fixed hname]

theorem written {m : Markup Text} (hm : m.isWritable) :
    f m.written = (m.map f).written ∧ (m.map f).isWritable := by
  have hvalues : ∀ v : Text, v.all isValueChar → (f v).all isValueChar := fun v hv => hf.values hv
  refine ⟨?_, Item.isMadeOf_map hvalues hm⟩
  match m, hm with
  | .text t, hm =>
    have hcut : ∀ t : Text, (Markup.text t).written = [] ++ '"' :: (t ++ '"' :: []) := by
      intro t
      simp [Markup.written]
    rw [hcut, hf.append (by decide), hf.append (by decide), hf.fixed not_mem_nil]
    rfl
  | .element name none colon, hm => exact hf.name (Markup.callName_of_isWritable hm) colon
  | .element name (some attributes) colon, hm =>
    have hcall := Markup.callName_of_isWritable hm
    have htail : '$' ∉ Markup.colonText colon := by cases colon <;> decide
    simp only [Markup.isWritable, Markup.isMadeOf, Option.getD_some, and_eq_true, all_eq_true] at hm
    rw [Markup.written_some, hf.callText hcall htail, Markup.map, Option.map_some, Markup.written_some,
      map_map, map_map]
    congr 1
    refine map_congr_left fun a ha => ?_
    exact hf.attributeText (hm.2 a ha).1 a.2

end Refilling

theorem exists_of_bind_eq_ok {α β : Type} {x : Except Fault α} {k : α → Except Fault β} {b : β}
    (h : (x >>= k) = .ok b) : ∃ a, x = .ok a ∧ k a = .ok b := by
  cases x with
  | error f => cases h
  | ok a => exact ⟨a, rfl, h⟩

theorem Reference.replaceEach_refills {vars : Variables} (hvars : vars.ArePlain) {names : List Text}
    (hnames : ∀ n ∈ names, n.isName) {t : Text} (h : replaceEach vars (names.map ('$' :: ·)) s = .ok t) :
    ∃ f, Refilling f ∧ t = f s := by
  induction names generalizing s with
  | nil =>
    cases h
    exact ⟨_, Refilling.id, rfl⟩
  | cons n names ih =>
    rw [map_cons] at h
    cases hget : Table.get? vars ('$' :: n) with
    | none =>
      rw [replaceEach, foldlM_cons, hget] at h
      cases h
    | some value =>
      have hvalue := hvars.get? hget
      rw [replaceEach_cons (fun _ => value) (hnames n mem_cons_self)
        (hasValue_literal hget (not_mem_of_all (all_eq_true.mp hvalue) (by decide)))] at h
      obtain ⟨f, hf, rfl⟩ := ih (forall_mem_cons.mp hnames).2 h
      exact ⟨_, hf.comp (.fillIn n hvalue), rfl⟩

theorem Reference.resolve_refills {vars : Variables} (hvars : vars.ArePlain) {t : Text}
    (hs : '.' ∉ s) (h : resolve vars s [] = .ok t) : ∃ f, Refilling f ∧ t = f s := by
  rw [resolve, withoutIgnored, foldl_nil, all_eq_names] at h
  obtain ⟨r, hr, h⟩ := exists_of_bind_eq_ok h
  obtain ⟨f, hf, rfl⟩ := replaceEach_refills hvars (isName_of_mem_names (faithful_slots s)) hr
  rw [Compile.hasExpressionMark_eq_false (hf.not_mem hs (by decide))] at h
  cases h
  exact ⟨f, hf, rfl⟩

/-! ## Statements -/

/-- A line of a method: markup or a call, or an assignment, which may be a compound one. -/
inductive Statement where
  | item (i : Item Text)
  | assign (target : Text) (operator : Option Char) (value : Text)
  deriving Repr, DecidableEq

/-- What the values of assignments are made of: references, numbers, parentheses and operators. -/
def isOperandChar (c : Char) : Bool :=
  Text.isWordChar c || c == '$' || c == ' ' || c == '(' || c == ')' || Arithmetic.isOperator c

def isCallChar (c : Char) : Bool := isPlainChar c || c == '(' || c == ')' || c == ',' || c == '\t'

/-- A name with a list in parentheses, of which nothing is an attribute. -/
def isListCall (text : Text) : Bool := Method.isCall text.trim && !text.hasChar '='

namespace Statement

def written : Statement → Text
  | item i => i.written
  | assign target none value => target ++ " := " ++ value
  | assign target (some c) value => target ++ [' ', c, '=', ' '] ++ value

/-- Values, texts and arguments may refer to any variables. -/
def isSound : Statement → Bool
  | item (.markup m) => m.isWritable
  | item (.call name arguments _) =>
    name.isName &&
      (arguments.getD []).all fun a => !a.isEmpty && a.all fun c => Text.isWordChar c || c == '$'
  | assign target operator value =>
    Reference.isVariableName target && operator.all Arithmetic.isOperator && value.all isOperandChar

/-- No opening parenthesis applies what stands before it, a digit, a name or a closing one. -/
def isUnapplied : (applicable : Bool) → Text → Bool
  | _, [] => true
  | applicable, ' ' :: s => isUnapplied applicable s
  | applicable, c :: s => !(applicable && c == '(') && isUnapplied (Text.isWordChar c || c == ')') s

/-- What an assignment computes applies no function, whatever its variables name. -/
def appliesNothing : Statement → Bool
  | item _ => true
  | assign _ _ value => isUnapplied false value

structure KeptAs (st : Statement) (l : BodyLine) : Prop where
  verbatim : l.verbatim = false
  text : ∃ u k e, isUnit u = true ∧ LineEnd e ∧ l.text = Assignment.expand (sourceLine u k st.written e)

theorem calm_arguments {name : Text} {arguments : List Text} {colon : Bool}
    (h : (item (.call name (some arguments) colon)).isSound) : ∀ a ∈ arguments, CalmItem a := by
  simp only [isSound, Option.getD_some, and_eq_true, all_eq_true, not_eq_true', isEmpty_eq_false_iff] at h
  exact fun a ha => calmItem_of_forall (h.2 a ha).1 (h.2 a ha).2

theorem callName_of_isSound {name : Text} {arguments : Option (List Text)} {colon : Bool}
    (h : (item (.call name arguments colon)).isSound) : name.isName ∧ CallName name := by
  rw [isSound, and_eq_true] at h
  exact ⟨h.1, callName_of_isName h.1⟩

theorem steady_item {i : Item Text} (h : (item i).isSound) :
    Steady i.written ∧ i.written.count '(' = i.written.count ')' := by
  match i, h with
  | .markup m, h => exact steady_written h
  | .call name none colon, h =>
    have hn := (callName_of_isSound h).2
    exact ⟨steady_name hn colon, balanced_name hn colon⟩
  | .call name (some arguments) colon, h =>
    have hn := (callName_of_isSound h).2
    have hpieces := fun p hp => (calm_arguments h p hp).piece
    exact ⟨steady_callText hn colon (by simp) hpieces, balanced_callText hn colon (by simp) hpieces⟩

section RunLine
variable {vars : Variables} {line u e : Text} {k : Nat}

theorem steady_call {name : Text} {attributes : List Text} (hn : CallName name)
    (h : ∀ c ∈ name ++ '(' :: (join "," attributes ++ [')']), isCallChar c) :
    Steady (name ++ '(' :: (join "," attributes ++ [')'])) := by
  refine ⟨?_, ⟨')', ?_, rfl⟩, ?_, ?_, ?_⟩
  · obtain ⟨c, hc, hletter⟩ := hn.head
    exact ⟨c, by rw [head?_append_of_ne_nil _ hn.ne_nil, hc], .inl hletter⟩
  · simp [getLast?_append, getLast?_cons]
  · intro hspace
    rcases head?_dropWhile_append_cons (a := name) (c := '(') rfl ' ' hspace with hm | hm
    · exact hn.not_mem (by decide) hm
    · exact absurd hm (by decide)
  · intro c hc
    have := h c hc
    refine ⟨?_, ?_, ?_, ?_, ?_⟩ <;> exact ne_of_class this (by decide)
  · exact equalsAfterWord_of_not_mem (not_mem_of_all h (by decide))

section Call
variable {name : Text} {items : List Text} {colon : Bool} (hn : CallName name) (hname : name.isName)
  (hu : isUnit u) (he : LineEnd e)
include hn hname hu he

theorem evaluate_call (hnl : '\n' ∉ callText name [' '] items (colonText colon)) {source : Text}
    (hresolve : resolve vars source [] = .ok (sourceLine u k (callText name [' '] items (colonText colon)) e))
    (h : evaluate vars source = .ok line) :
    ∃ attributes, line = u.times k ++ (name ++ '(' :: (join "," attributes ++ [')'])) := by
  rw [Item.evaluate_isCall (solid_callText hn colon) ((Item.isCall_callText hn hnl).trans hname) hu he hresolve] at h
  obtain ⟨d, hd, h⟩ := exists_of_bind_eq_ok h
  obtain ⟨attributes, -, h⟩ := exists_of_bind_eq_ok h
  have hdname : d.name = name := by
    have hparen : (callText name [' '] items (colonText colon)).hasChar '(' := by
      rw [hasChar_iff, callText]
      simp
    have hbefore : (callText name [' '] items (colonText colon)).before "(" = name :=
      before_append_cons (hn.not_mem (by decide))
    rw [Definition.read, (solid_callText hn colon).trim_eq] at hd
    simp only [hparen, if_true, hbefore] at hd
    obtain ⟨attributes, -, hd⟩ := exists_of_bind_eq_ok hd
    cases hd
    refine Solid.trimRight_eq (solid_of_forall hn.ne_nil fun c hc => ?_)
    exact isBlank_eq_false_of_isWordChar (hn.chars c hc)
  rw [hdname] at h
  cases h
  exact ⟨attributes, by simp⟩

theorem isListCall_callText (hi : ∀ a ∈ items, '=' ∉ a)
    (hnl : '\n' ∉ callText name [' '] items (colonText colon)) :
    isListCall (sourceLine u k (callText name [' '] items (colonText colon)) e) := by
  have hequals : '=' ∉ callText name [' '] items (colonText colon) := by
    intro hm
    rcases mem_callText hm with hm | hm | hm | ⟨a, ha, hm⟩ | hm
    · exact hn.not_mem (by decide) hm
    · exact absurd hm (by decide)
    · exact absurd hm (by decide)
    · exact hi a ha hm
    · exact absurd (mem_colonText hm) (by decide)
  have htrim : (sourceLine u k (callText name [' '] items (colonText colon)) e).trim =
      callText name [' '] items (colonText colon) :=
    trim_append_solid (isBlank_of_mem_times hu) he.isBlank (solid_callText hn colon)
  rw [isListCall, htrim, Item.isCall_callText hn hnl, hname, Bool.true_and, Bool.not_eq_true',
    hasChar_eq_false_iff, sourceLine]
  simp [not_mem_times hu, hequals, he.not_mem, isBlank]

end Call

theorem evaluate_item {i : Item Text} (hi : (item i).isSound) (hvars : vars.ArePlain)
    (hu : isUnit u) (he : LineEnd e) (h : evaluate vars (sourceLine u k i.written e) = .ok line)
    (hcall : isListCall (sourceLine u k i.written e) → line.all isCallChar) :
    ∃ tag e', Steady tag ∧ LineEnd e' ∧ line = sourceLine u k tag e' := by
  have hsteady := (steady_item hi).1
  have hfill : ∃ f, Refilling f ∧ resolve vars (sourceLine u k i.written e) [] =
      .ok (sourceLine u k (f i.written) e) := by
    obtain ⟨r, hr, -⟩ := exists_of_bind_eq_ok h
    obtain ⟨f, hf, rfl⟩ := resolve_refills hvars (hsteady.not_mem_sourceLine hu he (by simp)) hr
    exact ⟨f, hf, by rw [hr, hf.sourceLine hu he]⟩
  obtain ⟨f, hf, hresolve⟩ := hfill
  rcases i with m | ⟨name, _ | arguments, colon⟩
  · obtain ⟨hwritten, hwritable⟩ := hf.written hi
    change resolve vars (sourceLine u k m.written e) [] = .ok (sourceLine u k (f m.written) e)
      at hresolve
    change evaluate vars (sourceLine u k m.written e) = _ at h
    rw [hwritten] at hresolve
    rw [Item.evaluate_markup hwritable hu he hresolve] at h
    cases h
    exact ⟨_, _, Item.steady_yielded hwritable, Item.yieldedEnd_lineEnd he _, rfl⟩
  · have hn := (callName_of_isSound hi).2
    rw [Item.written, hf.name hn] at hresolve
    rw [Item.written, Item.evaluate_name hn colon hu he hresolve] at h
    cases h
    exact ⟨_, _, hsteady, he, rfl⟩
  · obtain ⟨hname, hn⟩ := callName_of_isSound hi
    have htail : '$' ∉ colonText colon := by cases colon <;> decide
    rw [Item.written] at hresolve hsteady hcall h
    have hnl : '\n' ∉ callText name [' '] (arguments.map f) (colonText colon) := by
      rw [← hf.callText hn htail]
      exact hf.not_mem (hsteady.not_mem (by simp)) (by decide)
    have hwords : ∀ a ∈ arguments, '=' ∉ a := by
      intro a ha
      simp only [isSound, Option.getD_some, and_eq_true, all_eq_true] at hi
      exact not_mem_of_all (hi.2 a ha).2 (by decide)
    have hlist := hcall (isListCall_callText hn hname hu he hwords (hsteady.not_mem (by simp)))
    rw [hf.callText hn htail] at hresolve
    obtain ⟨attributes, rfl⟩ := evaluate_call hn hname hu he hnl hresolve h
    refine ⟨_, [], steady_call hn fun c hc => ?_, .inl rfl, by rw [sourceLine, append_nil]⟩
    exact all_eq_true.mp hlist c (mem_append_right _ hc)

theorem mem_operators (hc : isOperator c) : ([c, '='], c) ∈ operators := by
  simp only [isOperator, or_eq_true, beq_iff_eq] at hc
  rcases hc with ((rfl | rfl) | rfl) | rfl <;> decide

theorem split_assign {target : Text} {operator : Option Char}
    (h : (assign target operator value).isSound) (hu : isUnit u) (he : LineEnd e) :
    ∃ a b, (expand (sourceLine u k (assign target operator value).written e)).split sign = [a, b] := by
  simp only [isSound, and_eq_true, all_eq_true] at h
  obtain ⟨⟨htarget, hop⟩, hvalue⟩ := h
  have hleft : '=' ∉ u.times k ++ (target ++ [' ']) := by
    have : '=' ∉ target := by
      unfold isVariableName at htarget
      split at htarget
      · rw [all_eq_true] at htarget
        simp [not_mem_of_all htarget (d := '=') (by decide)]
      · cases htarget
    simp [not_mem_times hu (c := '=') (by decide), this]
  have hright : '=' ∉ ' ' :: (value ++ e) := by
    simp [not_mem_of_all hvalue (d := '=') (by decide), he.not_mem (c := '=') (by decide)]
  -- Written out, the line has one assignment sign and no other equals sign.
  obtain ⟨b, hb, hwritten⟩ : ∃ b, '=' ∉ b ∧ Assignment.written
      (Assignment.target (sourceLine u k (assign target operator value).written e)) operators
        (sourceLine u k (assign target operator value).written e) =
      (u.times k ++ (target ++ [' '])) ++ ':' :: '=' :: b := by
    cases operator with
    | none =>
      have hcut : sourceLine u k (assign target none value).written e =
          (u.times k ++ (target ++ [' '])) ++ ':' :: '=' :: (' ' :: (value ++ e)) := by
        simp [sourceLine, written]
      exact ⟨_, hright, by rw [hcut, written_plain _ hleft hright]⟩
    | some c =>
      have hcut : sourceLine u k (assign target (some c) value).written e =
          (u.times k ++ (target ++ [' '])) ++ c :: '=' :: (' ' :: (value ++ e)) := by
        simp [sourceLine, written]
      have hc : ([c, '='], c) ∈ operators := mem_operators hop
      have htrim : '=' ∉ (u.times k ++ (target ++ [' '])).trim := fun hm => hleft (mem_of_mem_trim hm)
      rw [hcut, target_compound hc hleft hright, written_compound hc hleft hright htrim]
      refine ⟨_, ?_, rfl⟩
      have hne := (arePairs_operators _ hc).2.2
      rw [mem_cons, or_iff_right (by decide), mem_append, or_iff_right htrim, mem_append, or_iff_left hright]
      simpa using hne.symm
  exact ⟨_, split_expand hleft hb hwritten⟩

/-- With plain values for its variables, a statement yields at most a line that assigns nothing. -/
theorem runLine_steady {st : Statement} {l : BodyLine} (hst : st.isSound) (hl : st.KeptAs l)
    (hvars : vars.ArePlain) {vars' : Variables} (h : runLine vars l = .ok (some line, vars'))
    (hcall : isListCall l.text → line.all isCallChar) :
    ∃ u k tag e, isUnit u ∧ Steady tag ∧ LineEnd e ∧ line = sourceLine u k tag e := by
  obtain ⟨u, k, e, hu, he, htext⟩ := hl.text
  rw [runLine, hl.verbatim, if_neg (by decide), htext] at h
  cases st with
  | item i =>
    obtain ⟨hsteady, hbalanced⟩ := steady_item hst
    rw [htext, written, hsteady.assignment_expand hbalanced hu he] at hcall
    rw [written, hsteady.assignment_expand hbalanced hu he,
      split_eq_singleton (hsteady.hasSign_sourceLine hu he)] at h
    obtain ⟨line', hline, h⟩ := exists_of_bind_eq_ok h
    cases h
    obtain ⟨tag, e', htag, he', rfl⟩ := evaluate_item hst hvars hu he hline hcall
    exact ⟨u, k, tag, e', hu, htag, he', rfl⟩
  | assign target operator value =>
    obtain ⟨a, b, hsplit⟩ := split_assign hst hu he
    rw [hsplit] at h
    obtain ⟨value', -, h⟩ := exists_of_bind_eq_ok h
    cases h

end RunLine
end Statement
end OutlineMarkup
