import OutlineMarkup.Proofs.Inlining
import OutlineMarkup.Proofs.Undeclared

/-!
# Passing arguments on

An argument may hold backslashes, and dollar signs behind them. Binding a parameter doubles the
backslashes, and putting the value in the place of a reference takes one of each two away again. So
an argument comes unchanged through any row of methods, and only when it is written do the dollar
signs lose their backslashes.
-/

namespace OutlineMarkup
open List Text Compile Markup Action Template

/-! ## Escaped dollar signs -/

namespace Text

/-- Each dollar sign stands right behind a backslash. -/
def isEscaped : Text → Bool
  | [] => true
  | '\\' :: '$' :: s => isEscaped s
  | c :: s => c != '$' && isEscaped s

def unescaped : Text → Text
  | [] => []
  | '\\' :: '$' :: s => '$' :: unescaped s
  | c :: s => c :: unescaped s

theorem isEscaped_of_not_mem {s : Text} (h : '$' ∉ s) : s.isEscaped := by
  fun_induction isEscaped s with
  | case1 => rfl
  | case2 s => simp at h
  | case3 c s _ ih =>
    rw [mem_cons, not_or] at h
    simp [ih h.2, Ne.symm h.1]

theorem isEscaped_append {s t : Text} (hs : s.isEscaped) (ht : t.isEscaped) : isEscaped (s ++ t) := by
  fun_induction isEscaped s with
  | case1 => exact ht
  | case2 s ih => exact ih hs
  | case3 c s hnext ih =>
    rw [Bool.and_eq_true] at hs
    -- A backslash at the end of the first part stands before no dollar sign of the second.
    have hcut : isEscaped (c :: (s ++ t)) = (c != '$' && isEscaped (s ++ t)) := by
      rw [isEscaped]
      intro r hc hr
      cases s with
      | nil =>
        rw [nil_append] at hr
        rw [hr] at ht
        cases ht
      | cons d s =>
        obtain ⟨rfl, rfl⟩ := cons.inj hr
        exact hnext s hc rfl
    rw [cons_append, hcut, hs.1, ih hs.2]
    rfl

theorem unescaped_append_newline (s : Text) : unescaped (s ++ ['\n']) = unescaped s ++ ['\n'] := by
  fun_induction unescaped s with
  | case1 => rfl
  | case2 s ih => exact congrArg ('$' :: ·) ih
  | case3 c s hnext ih =>
    rw [cons_append, unescaped, ih]
    · rfl
    · intro r hc hr
      cases s with
      | nil => cases hr
      | cons d s =>
        obtain ⟨rfl, rfl⟩ := cons.inj hr
        exact hnext s hc rfl

end Text

theorem Compile.unescapeDollars_eq (s : Text) : unescapeDollars s = s.unescaped := by
  fun_induction unescaped s with
  | case1 => rfl
  | case2 s ih =>
    rw [unescapeDollars, replace_cons]
    exact congrArg ('$' :: ·) ih
  | case3 c s hnext ih =>
    have hstart : "\\$".toList.isPrefixOf (c :: s) = false := by
      rw [← Bool.not_eq_true, isPrefixOf_iff_prefix]
      rintro ⟨r, hr⟩
      obtain ⟨hc, hs⟩ := cons.inj hr
      exact hnext r hc.symm hs.symm
    rw [unescapeDollars, replace_cons, hstart]
    exact congrArg (c :: ·) ih

theorem Reference.allFrom_of_isEscaped {s : Text} (h : s.isEscaped) (p : Option Char) : allFrom p s = [] := by
  fun_induction isEscaped s generalizing p with
  | case1 => rfl
  | case2 s ih => exact ih h _
  | case3 c s _ ih =>
    rw [Bool.and_eq_true, bne_iff_ne] at h
    rw [allFrom, beq_false_of_ne h.1]
    exact ih h.2 _

/-- Letters, digits, underscores and backslashes, and dollar signs right behind backslashes. -/
def isLiteralWord (a : Text) : Bool :=
  !a.isEmpty && a.all (fun c => Text.isWordChar c || c == '\\' || c == '$') && a.isEscaped

namespace Template
variable {p a before after : Text} {vars : Variables}

theorem resolve_between (hp : p.isName) (hbefore : ∀ c ∈ ['$', '\\', '.'], c ∉ before)
    (hafter : ∀ c ∈ ['$', '\\', '.'], c ∉ after)
    (hstop : ∀ c ∈ after.head?, isWordChar c = false) (ha : '.' ∉ a)
    (hvars : Table.get? vars ('$' :: p) = some (replace a "\\" "\\\\")) :
    Reference.resolve vars (before ++ ('$' :: p ++ after)) [] = .ok (before ++ (a ++ after)) := by
  let t : Template := before.map .char ++ (.ref p :: after.map .char)
  have hsource : t.source = before ++ ('$' :: p ++ after) := by
    simp [t, source, Slot.source, flatMap_map]
  have hstops : stopsWord (after.map .char) := by
    cases after with
    | nil => rfl
    | cons c r => simpa [stopsWord] using hstop c rfl
  have hsound : Sound [p] t := by
    refine Sound.chars_append (hbefore _ (by simp)) (hbefore _ (by simp)) ?_
    have hrest : Sound [p] (after.map .char) := Sound.of_chars (hafter _ (by simp)) (hafter _ (by simp))
    refine ⟨?_, fun c hc => hrest.chars c ?_, fun n hn => ?_⟩
    · rw [isSeparated, hstops, hrest.separated]
      rfl
    · exact (mem_cons.mp hc).resolve_left (by simp)
    · rcases mem_cons.mp hn with hn | hn
      · cases hn
        exact mem_singleton_self p
      · exact hrest.refs n hn
  have hclean : Clean t := hsound.clean (by simpa using hp)
  have hnames : t.names = [p] := by
    have hchars : Slot.name? ∘ Slot.char = fun _ => none := rfl
    simp [t, names, hchars, Slot.name?]
  have hfill : (t.fillIn [p] fun _ => a).source = before ++ (a ++ after) := by
    rw [source_fillIn (by simp [hnames])]
    simp [t, fill, Slot.fill, flatMap_map]
  have hreplace := hclean.faithful.replaceEach_single (fun _ => a) hp (hasValue_doubled hvars)
  have hpoint : '.' ∉ before ++ (a ++ after) := by
    simp [hbefore '.' (by simp), hafter '.' (by simp), ha]
  refine Reference.resolve_of_replaceEach ?_ (hasExpressionMark_eq_false hpoint)
  rw [← hsource, Reference.withoutIgnored, foldl_nil, hclean.all_source, hnames]
  exact hreplace.trans (by rw [hfill])

end Template

/-! ## One method -/

/-- At most calls of methods have been placed. -/
def Page.IsBlank (p : Page) : Prop := p = {} ∨ p = ({} : Page).push 0 none

theorem Page.IsBlank.enter {p : Page} (h : p.IsBlank) (tags : TagTable) (u : Text) :
    p.enter tags u 0 none = .ok (({} : Page).push 0 none) := by
  rcases h with rfl | rfl <;> rfl

namespace Compile
variable {tags : TagTable} {u p a tag e yielded : Text} {s : Session} {m : Method} {l : BodyLine}

def isPassedChar (c : Char) : Bool := Text.isWordChar c || "\\$\"()".toList.contains c

theorem undeclared_of_forall (hne : tag ≠ []) (hchars : ∀ c ∈ tag, isPassedChar c)
    (hun : isUnreserved tag) (he : LineEnd e) : Solid tag ∧ Undeclared (tag ++ e) := by
  have hclass : ∀ c ∈ [' ', ':', '=', '!'], c ∉ tag := by
    have hsign : ∀ c ∈ [' ', ':', '=', '!'], isPassedChar c = false := by decide
    exact fun c hc => not_mem_of_all hchars (hsign c hc)
  have hline : ∀ c ∈ [' ', ':', '=', '!'], c ∉ tag ++ e := by
    have hsign : ∀ c ∈ [' ', ':', '=', '!'], c ≠ '\n' := by decide
    intro c hc hm
    rcases mem_append.mp hm with hm | hm
    · exact hclass c hc hm
    · exact he.not_mem (hsign c hc) hm
  have hsolid : Solid tag := solid_of_forall hne fun c hc =>
    isBlank_eq_false_of_class (hchars c hc) (by decide)
  have htrim : (tag ++ e).trim = tag :=
    trim_append_solid (isBlank_of_mem_times (u := " ") (k := 0) rfl) he.isBlank hsolid
  have hstart : ∀ w : Text, ' ' ∈ w → ∀ t : Text, ' ' ∉ t → w.isPrefixOf t = false := by
    intro w hw t ht
    rw [← Bool.not_eq_true, isPrefixOf_iff_prefix]
    exact fun h => ht (h.subset hw)
  refine ⟨hsolid, ?_, ?_, ?_, ?_, ?_, ?_, ?_, ?_⟩
  · rw [htrim]
    exact declaresVerbatim_eq_false hun
  · exact hstart _ (by decide) _ (htrim.symm ▸ hclass ' ' (by simp))
  · exact hstart _ (by decide) _ (hline ' ' (by simp))
  · exact has_eq_false_of_not_mem (c := ':') (by decide) (htrim.symm ▸ hclass ':' (by simp))
  · rw [Assignment.isCompound, any_eq_false]
    intro op hop
    rw [Bool.not_eq_true]
    refine has_eq_false_of_not_mem (c := '=') ?_ (hline '=' (by simp))
    revert op
    decide
  · exact hstart _ (by decide) _ (hline ' ' (by simp))
  · simp only [isUnreserved, Bool.and_eq_true, Bool.not_eq_true'] at hun
    exact hasEngine_eq_false (u := " ") (k := 0) hun.2 rfl he
  · intro heq
    exact hline '!' (by simp) (heq ▸ by decide)

theorem line_literal (handle : Handler) (tag : Text)
    (hi : s.endDefinition.Idle tags u) (hu : isUnit u) (hne : tag ≠ []) (hchars : ∀ c ∈ tag, isPassedChar c)
    (hun : isUnreserved tag) (he : LineEnd e) : (line handle (tag ++ e)).runFrom s =
      (markupLine handle 0 [] tag).runFrom s.endDefinition := by
  obtain ⟨hsolid, hundeclared⟩ := undeclared_of_forall hne hchars hun he
  have htrim : (tag ++ e).trim = tag :=
    trim_append_solid (isBlank_of_mem_times (u := u) (k := 0) hu) he.isBlank hsolid
  have hreads : s.Reads u 0 := hi.reads (Nat.zero_le _)
  have hdepth : (depthOf (sourceLine u 0 tag e)).runFrom s = (.ok 0, s) := depthOf_sourceLine hsolid hu hreads
  have hbracket : '[' ∉ tag ++ e := by
    simp [not_mem_of_all hchars (d := '[') (by decide), he.not_mem (c := '[') (by decide)]
  have hexpand : Shorthand.expand (tag ++ e) = .ok (tag ++ e) := shorthand_eq_self hbracket
  have hhash : tag.head? ≠ some '#' := fun h =>
    not_mem_of_all hchars (d := '#') (by decide) (mem_of_mem_head? h)
  have hpoint : '.' ∉ (tag ++ e).trim := htrim.symm ▸ not_mem_of_all hchars (by decide)
  have hblock : s.block = none := hi.block
  have hverbatims : s.verbatims = [] := hi.verbatims
  have hloops : s.loops = [] := hi.loops
  have hline : (line handle (sourceLine u 0 tag e)).runFrom s =
      (plainLine handle 0 [] (sourceLine u 0 tag e)).runFrom s :=
    line_eq_plainLine (k := 0) hu hreads hblock hverbatims hsolid hhash he hexpand
  have hedge : (plainLine handle 0 [] (tag ++ e)).runFrom s =
      (markupLine handle 0 [] (tag ++ e).trim).runFrom s.endDefinition :=
    hundeclared.plainLine_edge (.inl hpoint) hloops hdepth 0 []
  rw [htrim] at hedge
  rw [← hedge]
  exact hline

theorem runMethod_single (handle : Handler) (hparameters : m.parameters = ['$' :: p])
    (hown : m.ownVariables) (hlines : m.lines = [l]) (hs : s.Idle tags u)
    (hline : ∀ vars, Table.get? vars ('$' :: p) = some (replace a "\\" "\\\\") →
      Method.runLine vars l = .ok (some yielded, vars)) :
    ∃ s', (runMethod handle m [a] []).runFrom s = (handle yielded).runFrom s' ∧ s'.Idle tags u ∧
      s'.page = s.page ∧ s'.methods = s.methods := by
  let vars : Variables := s.globals.set ('$' :: p) (replace a "\\" "\\\\")
  have hbind : m.bindArguments [a] s.globals = (.ok (), vars) := by
    rw [Method.bindArguments, hparameters]
    rfl
  obtain ⟨s₁, hset, hpage, -, hstore, hkeeps⟩ := setFrame_run m vars s
  have hframe : s₁.store.frame m = vars := by rw [hstore, Store.frame_setFrame]
  obtain ⟨s₂, hset₂, hpage₂, -, hstore₂, hkeeps₂⟩ := setFrame_run m vars s₁
  have hrun := hline vars (Table.get?_set_self _ _ _)
  have hmethods : s₂.methods = s.methods := by
    have h₁ := congrArg Store.methods hstore
    have h₂ := congrArg Store.methods hstore₂
    rw [Store.setFrame, hown] at h₁ h₂
    exact h₂.trans h₁
  refine ⟨s₂, ?_, (hkeeps₂ u).2 tags ((hkeeps u).2 tags hs), hpage₂.trans hpage, hmethods⟩
  have hone : (runLine handle m [] l).runFrom s₁ = (handle yielded).runFrom s₂ := by
    simp [runLine, runFrom_bind, frame_run, hframe, hrun, hset₂]
  simp only [runMethod, runFrom_bind, runFrom_get, hbind, hset, runFrom_liftM, hlines,
    runFrom_forM_cons, hone]
  rcases (handle yielded).runFrom s₂ with ⟨_ | _, t⟩ <;> rfl

end Compile

theorem isLiteralWord_iff {a : Text} : isLiteralWord a ↔
    a ≠ [] ∧ (∀ c ∈ a, (isWordChar c || c == '\\' || c == '$')) ∧ a.isEscaped := by
  simp [isLiteralWord, and_assoc]

section Literal
variable {tags : TagTable} {u p a name e : Text} {s : Session} {m : Method}
  {handle : Handler} {l : BodyLine} {vars : Variables}

theorem simple_of_isLiteralWord (ha : isLiteralWord a) : Attributes.Simple a :=
  Attributes.simple_of_class _ (isLiteralWord_iff.mp ha).1 (isLiteralWord_iff.mp ha).2.1 (by decide)

theorem callText_single (name a : Text) : callText name [] [a] [] = name ++ '(' :: (a ++ ')' :: []) := by
  simp [callText, join]

theorem isPassedChar_of_mem (ha : isLiteralWord a) : ∀ c ∈ a, isPassedChar c := by
  intro c hc
  have h := (isLiteralWord_iff.mp ha).2.1 c hc
  simp only [Bool.or_eq_true, beq_iff_eq] at h
  rcases h with (h | rfl) | rfl
  · simp [isPassedChar, h]
  · rfl
  · rfl

theorem isPassedChar_call (hn : CallName name) (ha : isLiteralWord a) :
    ∀ c ∈ callText name [] [a] [], isPassedChar c := by
  intro c hc
  rw [callText_single] at hc
  simp only [mem_append, mem_cons, not_mem_nil, or_false] at hc
  rcases hc with hc | rfl | hc | rfl
  · simp [isPassedChar, hn.chars c hc]
  · rfl
  · exact isPassedChar_of_mem ha c hc
  · rfl

theorem isPassedChar_quoted (ha : isLiteralWord a) : ∀ c ∈ '"' :: a ++ ['"'], isPassedChar c := by
  intro c hc
  simp only [cons_append, mem_cons, mem_append, not_mem_nil, or_false] at hc
  rcases hc with rfl | hc | rfl
  · rfl
  · exact isPassedChar_of_mem ha c hc
  · rfl

namespace Compile

theorem enter_blank (hs : s.Idle tags u) (hu : isUnit u) (hblank : s.page.IsBlank) :
    (enter (0 : Nat) (some none)).runFrom s = (.ok (), s.withPage (({} : Page).push 0 none)) := by
  have henter : Follows ((enter (0 : Nat) (some none)).runFrom s) s (s.page.enter s.tags u 0 none) :=
    enter_run hs.defining (hs.knowsUnit (k := 0)) (indents_of_isUnit hu) hs.known none
  rw [hblank.enter] at henter
  exact henter

theorem markupLine_call (handle : Handler) (hn : CallName name) (ha : isLiteralWord a)
    (hm : s.methods.get? name = some m) (hs : s.Idle tags u) (hu : isUnit u) (hblank : s.page.IsBlank) :
    (markupLine handle 0 [] (callText name [] [a] [])).runFrom s =
      (runMethod handle m [a] []).runFrom (s.withPage (({} : Page).push 0 none)) := by
  obtain ⟨hne, hchars, hescaped⟩ := isLiteralWord_iff.mp ha
  have hrefs : Reference.all (callText name [] [a] []) = [] := by
    refine Reference.allFrom_of_isEscaped ?_ none
    rw [callText_single]
    exact isEscaped_append (isEscaped_of_not_mem (hn.not_mem (by decide)))
      (isEscaped_append hescaped rfl)
  have hresolve := resolve_unchanged (s := s) hrefs
    (.inl (hasExpressionMark_eq_false (not_mem_of_all (isPassedChar_call hn ha) (by decide))))
    (not_mem_of_all (isPassedChar_call hn ha) (by decide))
  have hread : Definition.read (callText name [] [a] []) = .ok ⟨name, [a]⟩ :=
    read_callText hn false (by simp) (by simpa using simple_of_isLiteralWord ha)
  obtain ⟨c, hc, hword⟩ := hn.head
  have hhead : (callText name [] [a] []).head? = some c := by
    rw [callText_single, head?_append, hc]
    rfl
  have hquote : isQuote c = false := by
    simp only [isQuote, Bool.or_eq_false_iff, beq_eq_false_iff_ne]
    exact ⟨ne_of_class hword (by decide), ne_of_class hword (by decide)⟩
  simp only [markupLine, definitionLine, runFrom_bind, hresolve, hhead, hquote, Bool.false_eq_true,
    if_false, hread, runFrom_liftM, runFrom_get, hm, enter_blank hs hu hblank]

theorem markupLine_quoted (handle : Handler) (ha : isLiteralWord a)
    (hs : s.Idle tags u) (hu : isUnit u) (hblank : s.page.IsBlank) :
    (markupLine handle 0 [] ('"' :: a ++ ['"'])).runFrom s =
      (.ok (), s.withPage (({ written := (a.unescaped ++ ['\n']).reverse } : Page).push 0 none)) := by
  obtain ⟨hne, hchars, hescaped⟩ := isLiteralWord_iff.mp ha
  have hrefs : Reference.all ('"' :: a ++ ['"']) = [] := by
    refine Reference.allFrom_of_isEscaped ?_ none
    exact isEscaped_append (s := ['"'] ++ a) (isEscaped_append rfl hescaped) rfl
  have hresolve := resolve_unchanged (s := s) hrefs
    (.inl (hasExpressionMark_eq_false (not_mem_of_all (isPassedChar_quoted ha) (by decide))))
    (not_mem_of_all (isPassedChar_quoted ha) (by decide))
  have hinner : Text.inner ('"' :: a ++ ['"']) = a := by simp [Text.inner]
  have hwrite : (writeLine 0 [] (a ++ ['\n']) none none).runFrom s =
      (.ok (), s.withPage (({ written := (a.unescaped ++ ['\n']).reverse } : Page).push 0 none)) := by
    simp only [writeLine, runFrom_bind, enter_blank hs hu hblank, runFrom_modify, write, nil_append,
      unescapeDollars_eq, unescaped_append_newline]
    simp [Session.withPage, Page.push]
  simp only [markupLine, runFrom_bind, hresolve, hinner]
  exact hwrite

end Compile

/-! ## A row of methods -/

theorem isOperator_of_passed {c : Char} (h : isPassedChar c) :
    Arithmetic.isOperator c = false := Item.isOperator_eq_false h (by decide)

theorem runLine_of_evaluate {line : Text} (hverbatim : l.verbatim = false)
    (hsign : ':' ∉ l.text) (h : Method.evaluate vars l.text = .ok line) :
    Method.runLine vars l = .ok (some line, vars) := by
  have hsplit : l.text.split Assignment.sign = [l.text] :=
    split_eq_singleton (has_eq_false_of_not_mem (c := ':') (by decide) hsign)
  rw [Method.runLine, hverbatim, hsplit]
  change (Method.evaluate vars l.text >>= fun line => _) = _
  rw [h]
  rfl

theorem runLine_passed (hname : name.isName) (hp : p.isName) (ha : isLiteralWord a)
    (hl : Keeps u (1, .call name (some [[.ref p]]) false) l) (hu : isUnit u)
    (hvars : Table.get? vars ('$' :: p) = some (replace a "\\" "\\\\")) :
    Method.runLine vars l = .ok (some (callText name [] [a] []), vars) := by
  obtain ⟨hverbatim, e, he, htext⟩ := hl
  have hn := callName_of_isName hname
  have hparameter := callName_of_isName hp
  have hwritten : ∀ w : Text, callText name [' '] [w] [] ++ e = (name ++ ['(']) ++ (w ++ (')' :: e)) := by
    intro w
    simp [callText, join]
  have htext : l.text = (name ++ ['(']) ++ ('$' :: p ++ (')' :: e)) := by
    rw [htext, ← hwritten]
    simp [Item.map, Item.written, source, Slot.source, colonText, sourceLine]
  have hresolve : Reference.resolve vars l.text [] = .ok (sourceLine u 0 (callText name [' '] [a] []) e) := by
    rw [sourceLine, times_zero, nil_append, hwritten, htext]
    have hclass : ∀ c ∈ ['$', '\\', '.'], isWordChar c = false ∧ c ∉ ['(', ')', '\n'] := by decide
    refine resolve_between hp (fun c hc hm => ?_) (fun c hc hm => ?_) (by simp; decide)
      (not_mem_of_all (isPassedChar_of_mem ha) (by decide)) hvars
    · rcases mem_append.mp hm with hm | hm
      · exact hn.not_mem (hclass c hc).1 hm
      · exact (hclass c hc).2 (by simp_all)
    · rcases mem_cons.mp hm with hm | hm
      · exact (hclass c hc).2 (by simp [hm])
      · exact he.not_mem (fun heq => (hclass c hc).2 (by simp [heq])) hm
  have hfeed : '\n' ∉ callText name [' '] [a] [] := by
    have h := not_mem_of_all (isPassedChar_call hn ha) (d := '\n') (by decide)
    simpa [callText, join] using h
  have hevaluate := Item.evaluate_list hn false hu he hfeed hresolve hname fun q hq => by
    obtain rfl := mem_singleton.mp hq
    exact ⟨simple_of_isLiteralWord ha, Item.hasOperator_eq_false fun c hc =>
      isOperator_of_passed (isPassedChar_of_mem ha c hc)⟩
  have hsign : ':' ∉ l.text := by
    simp [htext, hn.not_mem (c := ':') (by decide), hparameter.not_mem (c := ':') (by decide),
      he.not_mem (c := ':') (by decide)]
  rw [runLine_of_evaluate hverbatim hsign hevaluate]
  simp [sourceLine]

theorem runLine_quoted (hp : p.isName) (ha : isLiteralWord a)
    (hl : Keeps u (1, .markup (.text [.ref p])) l) (hu : isUnit u) : ∃ e, LineEnd e ∧ ∀ vars : Variables,
      vars.get? ('$' :: p) = some (replace a "\\" "\\\\") →
        Method.runLine vars l = .ok (some ('"' :: a ++ ['"'] ++ e), vars) := by
  obtain ⟨hverbatim, e, he, htext⟩ := hl
  refine ⟨e, he, fun vars hvars => ?_⟩
  have hparameter := callName_of_isName hp
  have htext : l.text = ['"'] ++ ('$' :: p ++ ('"' :: e)) := by
    rw [htext]
    simp [Item.map, Item.written, Markup.map, Markup.written, source, Slot.source, sourceLine]
  have hresolve : Reference.resolve vars l.text [] = .ok (sourceLine u 0 ('"' :: a ++ ['"']) e) := by
    have hclass : ∀ c ∈ ['$', '\\', '.'], c ∉ ['"', '\n'] := by decide
    have hcut : sourceLine u 0 ('"' :: a ++ ['"']) e = ['"'] ++ (a ++ ('"' :: e)) := by simp [sourceLine]
    rw [hcut, htext]
    refine Template.resolve_between hp (fun c hc hm => ?_) (fun c hc hm => ?_) (by simp; decide)
      (not_mem_of_all (isPassedChar_of_mem ha) (by decide)) hvars
    · exact hclass c hc (by simp_all)
    · rcases mem_cons.mp hm with hm | hm
      · exact hclass c hc (by simp [hm])
      · exact he.not_mem (fun heq => hclass c hc (by simp [heq])) hm
  have hsolid : Text.Solid ('"' :: a ++ ['"']) := ⟨⟨'"', rfl, rfl⟩, ⟨'"', by rw [getLast?_append]; rfl, rfl⟩⟩
  have hoperator : Arithmetic.hasOperator '"' (sourceLine u 0 ('"' :: a ++ ['"']) e) = false := by
    refine Item.hasOperator_eq_false fun c hc => ?_
    rcases mem_append.mp hc with hc | hc
    · cases hc
    rcases mem_append.mp hc with hc | hc
    · exact isOperator_of_passed (isPassedChar_quoted ha c hc)
    · rcases he with rfl | rfl
      · cases hc
      · obtain rfl := mem_singleton.mp hc
        rfl
  have hevaluate := Item.evaluate_bare hsolid rfl hoperator hu he hresolve
  have hsign : ':' ∉ l.text := by
    simp [htext, hparameter.not_mem (c := ':') (by decide), he.not_mem (c := ':') (by decide)]
  rw [runLine_of_evaluate hverbatim hsign hevaluate]
  simp [sourceLine]

end Literal

/-- Methods of which each passes its parameter to the next, and the last writes it. -/
def forwarding (p : Text) : List Text → List Procedure
  | [] => []
  | [m] => [⟨m, some [p], true, [(1, .markup (.text [.ref p]))]⟩]
  | m :: n :: ms => ⟨m, some [p], true, [(1, .call n (some [[.ref p]]) false)]⟩ :: forwarding p (n :: ms)

/-- The names that methods and their parameters may have. -/
def isPassingName (name : Text) : Bool := isCallName name && isUnreserved name

theorem isUnreserved_call {name w : Text} (hname : isUnreserved name)
    (hw : isUnreserved w) : isUnreserved (callText name [] [w] []) := by
  rw [callText_single]
  exact isUnreserved_append_cons (by decide) hname (isUnreserved_append_cons (by decide) hw rfl)

theorem isUnreserved_quoted {w : Text} (hw : isUnreserved w) : isUnreserved ('"' :: w ++ ['"']) :=
  isUnreserved_append_cons (s := []) (by decide) rfl (isUnreserved_append_cons (by decide) hw rfl)

section Chain
variable {tags : TagTable} {u p a m e : Text} {ms : List Text} {s : Session} {n : Nat}

theorem line_passes (handle : Handler) {item : Item Template}
    (hm : isPassingName m) (ha : isLiteralWord a) (hun : isUnreserved a) (hu : isUnit u)
    (hfound : ∃ me, s.methods.get? m = some me ∧
      (Procedure.routine ⟨m, some [p], true, [(1, item)]⟩).Stands u me)
    (hi : s.endDefinition.Idle tags u) (hblank : s.page.IsBlank) (he : LineEnd e) :
    ∃ l, Keeps u (1, item) l ∧ ∀ yielded,
      (∀ vars : Variables, vars.get? ('$' :: p) = some (replace a "\\" "\\\\") →
        Method.runLine vars l = .ok (some yielded, vars)) →
      ∃ s', (line handle (callText m [] [a] [] ++ e)).runFrom s = (handle yielded).runFrom s' ∧
        s'.Idle tags u ∧ s'.page.IsBlank ∧ s'.methods = s.methods := by
  rw [isPassingName, Bool.and_eq_true] at hm
  have hname := callName_of_isCallName hm.1
  obtain ⟨me, hget, hparameters, hown, hlines⟩ := hfound
  obtain ⟨l, hl, hkeeps⟩ : ∃ l, me.lines = [l] ∧ Keeps u (1, item) l := by
    generalize me.lines = ls at hlines
    rcases hlines with _ | ⟨hkeeps, _ | _⟩
    exact ⟨_, rfl, hkeeps⟩
  refine ⟨l, hkeeps, fun yielded hyield => ?_⟩
  have hcall := line_literal handle (callText m [] [a] []) hi hu (by simp [callText])
    (isPassedChar_call hname ha) (isUnreserved_call hm.2 hun) he
  rw [hcall, markupLine_call (s := s.endDefinition) handle hname ha
    hget hi hu hblank]
  have hidle : (s.endDefinition.withPage (({} : Page).push 0 none)).Idle tags u :=
    hi.learn_withPage (k := 0) Page.regular_push ⟨by simp [Page.push], by simp [Page.push]⟩ rfl
  obtain ⟨s', hrun, hidle', hpage, hmethods⟩ := runMethod_single handle hparameters hown hl
    hidle hyield
  exact ⟨s', hrun, hidle', .inr hpage, hmethods⟩

theorem lineTo_forwards (hu : isUnit u) (hp : p.isName) (ha : isLiteralWord a)
    (hun : isUnreserved a) (hnames : ∀ x ∈ m :: ms, isPassingName x)
    (hfound : ∀ q ∈ forwarding p (m :: ms), ∃ me, s.methods.get? q.name = some me ∧ q.routine.Stands u me)
    (hi : s.endDefinition.Idle tags u) (hblank : s.page.IsBlank) (hn : ms.length < n) (he : LineEnd e) :
    ∃ s' : Session, (lineTo (n + 1) (callText m [] [a] [] ++ e)).runFrom s = (.ok (), s') ∧
      s'.Idle tags u ∧ s'.page = ({ written := (a.unescaped ++ ['\n']).reverse } : Page).push 0 none := by
  induction ms generalizing m s n e with
  | nil =>
    obtain ⟨l, hkeeps, hline⟩ := line_passes (lineTo n) (hnames m mem_cons_self) ha hun hu
      (hfound _ mem_cons_self) hi hblank he
    obtain ⟨e', he', hyield⟩ := runLine_quoted hp ha hkeeps hu
    obtain ⟨s₁, hrun, hidle, hpage, _⟩ := hline _ hyield
    obtain ⟨n, rfl⟩ : ∃ k, n = k + 1 := ⟨n - 1, by simp at hn; omega⟩
    have hdefining := Session.endDefinition_eq hidle.defining
    have htext := line_literal (s := s₁) (lineTo n) ('"' :: a ++ ['"'])
      (hdefining.symm ▸ hidle) hu (by simp) (isPassedChar_quoted ha) (isUnreserved_quoted hun) he'
    rw [hdefining, markupLine_quoted (lineTo n) ha hidle hu hpage] at htext
    refine ⟨_, hrun.trans htext, ?_, rfl⟩
    exact hidle.learn_withPage (k := 0) Page.regular_push
      ⟨by simp [Page.push], by simp [Page.push]⟩ rfl
  | cons m' ms ih =>
    obtain ⟨l, hkeeps, hline⟩ := line_passes (lineTo n) (hnames m mem_cons_self) ha hun hu
      (hfound _ mem_cons_self) hi hblank he
    have hnames' : ∀ x ∈ m' :: ms, isPassingName x := (forall_mem_cons.mp hnames).2
    have hm' := hnames' m' mem_cons_self
    rw [isPassingName, Bool.and_eq_true] at hm'
    obtain ⟨s₁, hrun, hidle, hpage, hmethods⟩ := hline _ fun vars hvars =>
      runLine_passed (isName_of_isCallName hm'.1) hp ha hkeeps hu hvars
    obtain ⟨n, rfl⟩ : ∃ k, n = k + 1 := ⟨n - 1, by simp at hn; omega⟩
    have hdefining := Session.endDefinition_eq hidle.defining
    obtain ⟨s₂, hrun₂, hresult⟩ := ih (s := s₁) (e := []) hnames'
      (fun q hq => hmethods ▸ hfound q (.tail _ hq)) (hdefining.symm ▸ hidle) hpage
      (by simp at hn; omega) (.inl rfl)
    rw [append_nil] at hrun₂
    exact ⟨s₂, hrun.trans hrun₂, hresult⟩

end Chain

/-! ## The document -/

section Definitions
variable {p : Text} {names : List Text} {q : Procedure}

theorem mem_forwarding (hq : q ∈ forwarding p names) :
    ∃ m ∈ names, ∃ item, q = ⟨m, some [p], true, [(1, item)]⟩ ∧
      (item = .markup (.text [.ref p]) ∨ ∃ n ∈ names, item = .call n (some [[.ref p]]) false) := by
  fun_induction forwarding p names with
  | case1 => cases hq
  | case2 m =>
    obtain rfl := mem_singleton.mp hq
    exact ⟨m, mem_singleton_self m, _, rfl, .inl rfl⟩
  | case3 m n ms ih =>
    rcases mem_cons.mp hq with rfl | hq
    · exact ⟨m, mem_cons_self, _, rfl, .inr ⟨n, by simp, rfl⟩⟩
    · obtain ⟨m', hm', item, hitem, hcase⟩ := ih hq
      refine ⟨m', .tail _ hm', item, hitem, hcase.imp_right ?_⟩
      rintro ⟨n', hn', h⟩
      exact ⟨n', .tail _ hn', h⟩

theorem forwarding_names (p : Text) (names : List Text) : (forwarding p names).map (·.name) = names := by
  fun_induction forwarding p names with
  | case1 | case2 m => rfl
  | case3 m n ms ih => rw [map_cons, ih]

theorem isUnreserved_reference (hp : isUnreserved p) : isUnreserved ('$' :: p) :=
  isUnreserved_append_cons (s := []) (by decide) rfl hp

theorem forwarding_definable (hp : p.isName ∧ isUnreserved p)
    (hnames : ∀ x ∈ names, isPassingName x) (hq : q ∈ forwarding p names) :
    q.IsDefinable ∧ isUnreserved q.header ∧ ∀ x ∈ q.body, Calm (x.2.map Template.source).written := by
  obtain ⟨m, hm, item, rfl, hitem⟩ := mem_forwarding hq
  have hname := hnames m hm
  rw [isPassingName, Bool.and_eq_true] at hname
  have href := isUnreserved_reference hp.2
  have hsource : ∀ w : Text, callText w [' '] ['$' :: p] [] = callText w [] ['$' :: p] [] := by
    simp [callText, join]
  have hbody : item.isSound [p] ∧ isUnreserved (item.map Template.source).written := by
    rcases hitem with rfl | ⟨n, hn, rfl⟩
    · refine ⟨by simp [Item.isSound, Markup.isMadeOf, Template.isMadeOf, Template.isSeparated,
        Template.stopsWord], ?_⟩
      have h := isUnreserved_quoted href
      simpa [Item.map, Item.written, Markup.map, Markup.written, Template.source, Slot.source] using h
    · have hn' := hnames n hn
      rw [isPassingName, Bool.and_eq_true] at hn'
      refine ⟨by simp [Item.isSound, Item.isSound, hn'.1, Template.isMadeOf, Template.isSeparated,
        Template.stopsWord], ?_⟩
      have h := isUnreserved_call hn'.2 href
      rw [← hsource] at h
      simpa [Item.map, Item.written, Template.source, Slot.source, Markup.colonText] using h
  have hletters : m.filter (· != '_') ≠ [] := by
    have hc := hname.1
    cases m with
    | nil => cases hc
    | cons c r =>
      rw [isCallName, Bool.and_eq_true] at hc
      have hne : (c != '_') := bne_iff_ne.mpr (ne_of_class hc.1 (by decide))
      simp [hne]
  refine ⟨⟨isName_of_isCallName hname.1, hletters, ?_, ?_, ?_, ?_, ?_⟩, ?_, ?_⟩
  · simpa [Procedure.names] using hp.1
  · simp
  · simp
  · simp
  · simpa [Procedure.names] using hbody.1
  · have hheader : Procedure.header ⟨m, some [p], true, [(1, item)]⟩ =
        "def" ++ ' ' :: (m ++ '(' :: ('$' :: p ++ ')' :: [':'])) := by
      simp [Procedure.header, Procedure.signature, Item.written, callText, join, Markup.colonText]
    rw [hheader]
    exact isUnreserved_append_cons (by decide) rfl (isUnreserved_append_cons (by decide) hname.2
      (isUnreserved_append_cons (by decide) href rfl))
  · simp only [mem_singleton, forall_eq]
    exact Item.calm_source hbody.1 (by simpa using hp.1) hbody.2

end Definitions

namespace Document

/-- An argument of letters, digits, underscores, backslashes and escaped dollar signs is passed on as
it stands through any row of methods: the last one writes it with the backslashes before dollar signs
taken away, and no other backslash and no dollar sign means anything. -/
theorem compile_forwarding (tags : TagTable) (u p a m : Text) (ms : List Text) (terminated : Bool)
    (files : Files) (path : Text)
    (hread : HasFile files path (sourceText ((forwarding p (m :: ms)).flatMap (·.lines u) ++ [m ++ '(' :: (a ++ [')'])])
      terminated))
    (hu : isUnit u = true) (hp : p.isName = true ∧ isUnreserved p = true)
    (hnames : ∀ x ∈ m :: ms, isPassingName x = true ∧ tags.has x = false) (hdistinct : (m :: ms).Nodup)
    (ha : isLiteralWord a = true) (hun : isUnreserved a = true) :
    (compile tags files path).Writes (a.unescaped ++ ['\n']) := by
  have hcall : m ++ '(' :: (a ++ [')']) = callText m [] [a] [] := (callText_single m a).symm
  rw [hcall] at hread
  have hpassing : ∀ x ∈ m :: ms, isPassingName x = true := fun x hx => (hnames x hx).1
  have hsigns : ∀ l ∈ (forwarding p (m :: ms)).flatMap (·.lines u) ++ [callText m [] [a] []],
      Complete l := by
    intro l hl
    rcases List.mem_append.mp hl with hl | hl
    · obtain ⟨q, hq, hl⟩ := List.mem_flatMap.mp hl
      obtain ⟨hq, _, hcalm⟩ := forwarding_definable hp hpassing hq
      obtain ⟨hne, hfeed, hslash⟩ := Procedure.line_signs hq hu hcalm l hl
      exact ⟨hne, hfeed, last_ne_backslash hslash⟩
    · obtain rfl := List.mem_singleton.mp hl
      have hname := hpassing m List.mem_cons_self
      rw [isPassingName, Bool.and_eq_true] at hname
      have hname := callName_of_isCallName hname.1
      refine ⟨by simp [callText], not_mem_of_all (isPassedChar_call hname ha) (by decide), ?_⟩
      have hsolid : Text.Solid (callText m [] [a] []) := solid_callText hname false
      rw [hsolid.trimRight_eq, callText_single]
      simp [List.getLast?_append, List.getLast?_cons]
  obtain ⟨n, hn, hhandle⟩ := handle_eq tags hread
  obtain ⟨ys, xs, hcut, hys, hxs⟩ := forall₂_append_left (forall₂_ended
    ((forwarding p (m :: ms)).flatMap (·.lines u) ++ [callText m [] [a] []]) terminated)
  rcases hxs with _ | ⟨⟨e, he, rfl⟩, _ | _⟩
  obtain ⟨s, hrun, hs⟩ := (Program.collects_start tags files path u).procedures (Compile.lineTo n) hu
    (fun q hq => by
      obtain ⟨hdefinable, hheader, hcalm⟩ := forwarding_definable hp hpassing hq
      obtain ⟨x, hx, item, rfl, _⟩ := mem_forwarding hq
      exact ⟨hdefinable, (hnames x hx).2, hheader, hcalm⟩)
    (by rw [List.nil_append, forwarding_names]; exact hdistinct) hys
  rw [List.nil_append] at hs
  have hfound : ∀ q ∈ forwarding p (m :: ms), ∃ me, s.methods.get? q.name = some me ∧
      q.routine.Stands u me := by
    intro q hq
    refine hs.holds.found ?_
    have hnodup : ((forwarding p (m :: ms)).map (·.name)).Nodup := by rwa [forwarding_names]
    rw [Program.routines, Program.find?_of_mem (P := ⟨forwarding p (m :: ms), []⟩) hnodup hq]
    rfl
  have hlength : ms.length < n := by
    have hlines := length_le_sourceText (fun l hl => (hsigns l hl).1) terminated
    have hprocedures := Program.length_procedures_le ⟨forwarding p (m :: ms), []⟩ u
    have hrow := congrArg List.length (forwarding_names p (m :: ms))
    simp only [Program.lines, List.map_nil, List.append_nil, List.length_map, List.length_append,
      List.length_cons, List.length_nil] at hlines hprocedures hrow
    omega
  obtain ⟨s', hline, hidle, hpage⟩ := lineTo_forwards hu hp.1 ha hun hpassing hfound hs.idle
    (Or.inl hs.page) hlength he
  have hdocument : (((Source.lines (sourceText ((forwarding p (m :: ms)).flatMap (·.lines u) ++
      [callText m [] [a] []]) terminated)).map (·.2)).forM (handle tags files path)).runFrom
      (start tags files path) = (.ok (), s') := by
    have hdefined : (ys.forM (Compile.lineTo (n + 1))).runFrom (start tags files path) = (.ok (), s) :=
      hrun
    rw [source_lines_of_last hsigns, hcut, hhandle, Action.runFrom_forM_append, hdefined]
    change ([callText m [] [a] [] ++ e].forM (Compile.lineTo (n + 1))).runFrom s = _
    rw [Action.runFrom_forM_cons, hline]
    rfl
  have hclose := Compile.closeAll_run (handle tags files path) hidle (indents_of_isUnit hu)
  obtain ⟨hfault, houtput⟩ := compile_of_ok hread hdocument hclose
  refine ⟨hfault, houtput.trans ?_⟩
  rw [hpage]
  simp [Page.push, Page.pop, Session.output, Session.withPage]

theorem compile_forwarding_sample :
    let compiled := compile sampleTags [("a".toList, sourceText ((forwarding "p".toList
      ["first".toList, "second".toList, "third".toList]).flatMap (·.lines "\t".toList) ++
        ["first(\\n\\$x\\\\1\\g)".toList]) true)] "a".toList
    compiled.Writes "\\n$x\\\\1\\g\n".toList :=
  compile_forwarding sampleTags "\t".toList "p".toList "\\n\\$x\\\\1\\g".toList "first".toList
    ["second".toList, "third".toList] true _ "a".toList rfl (by decide) (by decide)
    (by decide +kernel) (by decide) (by decide) (by decide)

end Document
end OutlineMarkup
