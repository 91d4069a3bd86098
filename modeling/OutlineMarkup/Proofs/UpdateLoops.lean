import OutlineMarkup.Proofs.Documents
import OutlineMarkup.Proofs.Updates
import OutlineMarkup.Proofs.Vacancy

/-!
# Loops of updates

A loop at the left edge whose lines are updates of variables. Its lines are kept, and when the loop ends
they run once for every item, on the variables of the document. Such a loop writes nothing: each call
is entered without an entry, in the place of the one before.
-/

namespace OutlineMarkup
open List Text Compile Action
variable {names : List Text} {env : Text → Int} {w : Text}

/-! ## Variables with whole numbers -/

/-- The variables hold whole numbers, in decimal form. -/
def Variables.Hold (vars : Variables) (names : List Text) (env : Text → Int) : Prop :=
  ∀ x ∈ names, vars.get? ('$' :: x) = some (Text.ofInt (env x))

theorem Variables.Hold.set {vars : Variables} (h : vars.Hold names env) (x : Text) (v : Int) :
    Variables.Hold (Table.set vars ('$' :: x) (ofInt v)) names (Function.update env x v) := by
  intro y hy
  by_cases hxy : y = x
  · subst hxy
    rw [Table.get?_set_self, Function.update_self]
  · have hne : '$' :: y ≠ '$' :: x := fun heq => hxy (cons.inj heq).2
    rw [Table.get?_set_ne _ hne, Function.update_of_ne hxy]
    exact h y hy

theorem Variables.Hold.bind {vars : Variables} (h : vars.Hold names env) (x : Text) (v : Int) :
    Variables.Hold (Table.set vars ('$' :: x) (ofInt v)) (x :: names) (Function.update env x v) := by
  intro y hy
  rcases mem_cons.mp hy with rfl | hy
  · rw [Table.get?_set_self, Function.update_self]
  · exact h.set x v y hy

def Operand.isOver (names : List Text) : Operand → Bool
  | number _ => true
  | reference name => names.contains name
  | colour _ => false

namespace Update
variable {w : Update} {names : List Text} {vars : Variables} {env : Text → Int}

/-- An update of one of the variables by a formula over them. An operand in parentheses is not one: the
line would assign its text. -/
@[mk_iff] structure IsOver (names : List Text) (w : Update) : Prop extends w.IsSound where
  known : w.target ∈ names
  operands : ∀ o ∈ w.formula.operands, o.isOver names = true
  form : w.operator = none → w.formula.isComputed = true ∨ w.formula.isOperand = true

instance (names : List Text) (w : Update) : Decidable (w.IsOver names) := decidable_of_iff' _ (isOver_iff names w)

theorem over_full (h : w.IsOver names) : ∀ o ∈ w.full.operands, o.isOver names := by
  unfold full
  split
  · exact h.operands
  · intro o ho
    rcases mem_cons.mp ho with rfl | ho
    · exact contains_iff_mem.mpr h.known
    · exact h.operands o ho

theorem evaluate_full (h : w.IsOver names) (hvars : vars.Hold names env) (hsmall : w.full.isSmall env) :
    Method.evaluate vars w.fullSpelling.text = .ok (ofInt (w.full.value env)) := by
  obtain ⟨hspelled, hhead⟩ := isSpelled_full h.toIsSound
  refine hspelled.evaluate (fun o ho => ?_) ?_ hhead (fun name hname => ?_) hsmall
  · have hover := over_full h o ho
    cases o with
    | number n | reference name => rfl
    | colour code => cases hover
  · unfold full
    split
    · rename_i hnone
      exact h.form hnone
    · exact .inl rfl
  · exact hvars name (contains_iff_mem.mp (over_full h _ hname))

/-- No value that comes up is long when the updates are carried out one after the other. -/
def areSmall : List Update → (Text → Int) → Bool
  | [], _ => true
  | w :: body, env => w.full.isSmall env && areSmall body (w.run env)

/-- The same for a loop of updates, once for every item. -/
def areSmallIn (v : Text) (body : List Update) : List Int → (Text → Int) → Bool
  | [], _ => true
  | a :: as, env => areSmall body (Function.update env v a) &&
    areSmallIn v body as (body.foldl (fun env w => w.run env) (Function.update env v a))

def KeptIn (w : Update) (l : BodyLine) : Prop :=
  l.verbatim = false ∧ ∃ e, LineEnd e ∧ l.text = Assignment.expand (w.written ++ e)

theorem keptIn (w : Update) {e : Text} (he : LineEnd e) (marked : List Text) :
    w.KeptIn ⟨false, Assignment.expand (w.written ++ e), marked⟩ := by
  refine ⟨rfl, e, he, ?_⟩
  dsimp only

theorem mem_before_written (w : Update) : '$' ∈ w.written.before "(" := mem_before_cons rfl

end Update

/-! ## Running the lines -/

namespace Compile
variable {m : Method} {s : Session} {names : List Text} {env : Text → Int}

theorem runLine_update (handle : Handler) (space : Text) {w : Update} (hw : w.IsSound) {l : BodyLine}
    (hl : w.KeptIn l) (hown : m.ownVariables = false) {value : Text}
    (hvalue : Method.evaluate s.globals w.fullSpelling.text = .ok value) :
    (runLine handle m space l).runFrom s = (.ok (), s.withGlobals (s.globals.set ('$' :: w.target) value)) := by
  obtain ⟨verbatim, text, marked⟩ := l
  obtain ⟨hverbatim, e, he, htext⟩ := hl
  dsimp only at hverbatim htext
  have hrun : Method.runLine s.globals ⟨verbatim, text, marked⟩ =
      .ok (none, s.globals.set ('$' :: w.target) value) := by
    rw [hverbatim, htext, Update.runLine_eq hw he, hvalue]
    rfl
  simp only [runLine, frame, setFrame, hown, runFrom_bind, runFrom_get, Bool.false_eq_true, if_false,
    runFrom_pure, runFrom_liftM, hrun, runFrom_modify]
  rfl

theorem runLines_updates (handle : Handler) (space : Text) {body : List Update}
    (hbody : ∀ w ∈ body, w.IsOver names) {lines : List BodyLine} (hlines : Forall₂ Update.KeptIn body lines)
    (hown : m.ownVariables = false) (hvars : s.globals.Hold names env) (hsmall : Update.areSmall body env) :
    ∃ vars, (lines.forM (runLine handle m space)).runFrom s = (.ok (), s.withGlobals vars) ∧
      vars.Hold names (body.foldl (fun env w => w.run env) env) := by
  induction hlines generalizing s env with
  | nil => exact ⟨s.globals, rfl, hvars⟩
  | @cons w l body lines hl _ ih =>
    have hw := hbody w mem_cons_self
    obtain ⟨hword, hrest⟩ := (Bool.and_eq_true_iff ..).mp hsmall
    have hfirst := runLine_update handle space hw.toIsSound hl hown (Update.evaluate_full hw hvars hword)
    obtain ⟨vars, hrun, hhold⟩ := ih (forall_mem_cons.mp hbody).2
      (s := s.withGlobals (s.globals.set ('$' :: w.target) (ofInt (w.full.value env))))
      (hvars.set w.target (w.full.value env)) hrest
    refine ⟨vars, ?_, hhold⟩
    change (runLine handle m space l >>= fun _ => lines.forM (runLine handle m space)).runFrom s = _
    rw [runFrom_bind_ok hfirst, hrun]
    rfl

end Compile

/-! ## Calls of a loop -/

theorem Compile.isUnreserved_of_isDigit (hw : ∀ c ∈ w, (c.isDigit || c == '-')) : isUnreserved w := by
  have hfree : ∀ (part : Text) (c : Char), c ∈ part → (c.isDigit || c == '-') = false → w.has part = false :=
    fun part c hc hclass => has_eq_false_of_not_mem hc
      (not_mem_of_all (p := fun c => c.isDigit || c == '-') hw hclass)
  simp only [isUnreserved, hfree "verbatim" 'v' (by decide) rfl, hfree "code_block" 'c' (by decide) rfl,
    hfree "TemplateEngine" 'T' (by decide) rfl]
  rfl

theorem isListed_ofInt (v : Int) : isListed (ofInt v) := by
  simp only [isListed, Bool.and_eq_true, all_eq_true, Bool.not_eq_true', isEmpty_eq_false_iff]
  refine ⟨ofInt_ne_nil v, fun c hc => ?_⟩
  have hclass := mem_ofInt hc
  simp only [Bool.or_eq_true, beq_iff_eq] at hclass
  rcases hclass with hdigit | rfl
  · simp [isWordChar, Char.isAlphanum, hdigit]
  · rfl

theorem Compile.names_loopCall (i : Nat) (hw : isListed w) (hun : isUnreserved w) :
    Names (Item.call (loopName i) (some [w]) false).written ⟨loopName i, [w]⟩ := by
  have hchars : ∀ c ∈ w, (isWordChar c || c == '-') := by
    simp only [isListed, Bool.and_eq_true, all_eq_true] at hw
    exact hw.2
  have hsign : ∀ d : Char, (isWordChar d || d == '-') = false → d ∉ w := fun d hd =>
    not_mem_of_all (p := fun c => isWordChar c || c == '-') hchars hd
  have hcalm : CalmItem w := by
    refine ⟨simple_of_isListed hw, fun c hc => ⟨?_, ?_, ?_⟩, equalsAfterWord_of_not_mem (hsign _ (by decide)), ?_⟩
    iterate 3
      rintro rfl
      exact hsign _ (by decide) hc
    exact fun hm => hsign _ (by decide) (mem_of_mem_head? hm)
  have hreserved := isUnreserved_loopCall i hun
  exact names_callText (callName_of_isCallName (isCallName_loopName i)) false (by simp) hreserved
    (by simpa using ⟨hcalm, hsign _ (by decide)⟩)

namespace Page

/-- The page in a loop at the left edge: the latest line is a call. -/
structure InLoop (p : Page) : Prop where
  elements : ∃ rest, p.elements = none :: rest
  level : p.level = 0
  fresh : p.fresh = false

theorem InLoop.room {p : Page} (h : p.InLoop) : p.room = 1 := by
  rw [Page.room, h.fresh, h.level]
  rfl

theorem InLoop.edge {p : Page} (h : p.InLoop) : p.edge none = p := by
  have hroom := h.room
  obtain ⟨level, fresh, elements, written, lastElement⟩ := p
  obtain ⟨⟨rest, rfl⟩, rfl, rfl⟩ := h
  rfl

end Page

namespace Compile
variable {handle : Handler} {u v : Text} {s : Session} {m : Method} {i : Nat}

theorem blockName_loopCall (i : Nat) (w : Text) :
    blockName (Item.call (loopName i) (some [w]) false).written = loopName i := by
  have hwritten : (Item.call (loopName i) (some [w]) false).written = loopName i ++ '(' :: (w ++ [')']) := by
    simp [Item.written, callText, join, Markup.colonText]
  have hname := callName_of_isCallName (isCallName_loopName i)
  have hbefore : before (loopName i ++ '(' :: (w ++ [')'])) "(" = loopName i :=
    before_append_cons (hname.not_mem (by decide))
  rw [hwritten, blockName, hbefore]
  refine trimOf_eq_self fun c hc => beq_eq_false_iff_ne.mpr ?_
  rintro rfl
  exact hname.not_mem (by decide) hc

section Called
variable (hu : isUnit u) (hs : s.Vacant u) (hloops : s.loops = []) (hpage : s.page.InLoop)
  (hm : s.methods.get? (loopName i) = some m) (hparameters : m.parameters = ['$' :: v]) (hown : m.ownVariables = false)
include hu hs hloops hpage hm hparameters hown

theorem line_loopCall (handle : Handler) (hw : isListed w) (hun : isUnreserved w) :
    (line handle (sourceLine u 0 (Item.call (loopName i) (some [w]) false).written [])).runFrom s =
      (m.lines.forM (runLine handle m [])).runFrom (s.withGlobals (s.globals.set ('$' :: v) w)) := by
  have hnames := names_loopCall i hw hun
  have hlearn : s.learn u 0 = s := rfl
  have hkind : s.verbatims.has (blockName (Item.call (loopName i) (some [w]) false).written) = false := by
    rw [Bool.eq_false_iff, blockName_loopCall]
    exact fun hhas => (hs.kinds _ hhas).2 i rfl
  have henter : (enter ((0 : Nat) : Int) (some none)).runFrom s = (.ok (), s) := by
    obtain ⟨rest, helements⟩ := hpage.elements
    have hroom : s.page.room ≤ s.elements.length := by
      change s.elements = none :: rest at helements
      rw [hpage.room, helements]
      exact Nat.le_add_left 1 _
    rw [enter_edge hs.defining hs.level hs.entries, if_pos hroom, hpage.edge, Session.withPage_page]
  have hslash : '\\' ∉ w := by
    simp only [isListed, Bool.and_eq_true, all_eq_true] at hw
    exact not_mem_of_all (p := fun c => isWordChar c || c == '-') hw.2 (by decide)
  have hreplace : w.replace "\\" "\\\\" = w := replace_eq_self_of_not_mem (c := '\\') (by decide) hslash _
  have hbind : m.bindArguments [w] s.globals = (.ok (), s.globals.set ('$' :: v) w) := by
    simp only [Method.bindArguments, hparameters, Method.bindFrom, hreplace]
  rw [line_calm hnames.calm hu (.inl rfl) hs.block hkind hloops hs.defining (hs.reads (Nat.zero_le 1)), hlearn,
    markupLine_named hnames _ hm]
  simp only [runFrom_bind, henter, runMethod, runFrom_get, hbind, setFrame, hown, Bool.false_eq_true,
    if_false, runFrom_modify, runFrom_liftM]
  rfl

theorem loopCalls_updates {n : Nat} {body : List Update}
    (hbody : ∀ w ∈ body, w.IsOver (v :: names)) (hlines : Forall₂ Update.KeptIn body m.lines)
    (items : List Text) (as : List Int) (hvars : s.globals.Hold names env)
    (hsmall : Update.areSmallIn v body as env) :
    ∃ vars, ((as.map ofInt).forM (loopCall (lineTo (n + 1)) ⟨loopName i, 0, items⟩)).runFrom s =
        (.ok (), s.withGlobals vars) ∧ vars.Hold names (as.foldl
        (fun env a => body.foldl (fun env w => w.run env) (Function.update env v a)) env) := by
  induction as generalizing s env with
  | nil => exact ⟨s.globals, rfl, hvars⟩
  | cons a as ih =>
    have hcall : (loopCall (lineTo (n + 1)) ⟨loopName i, 0, items⟩ (ofInt a)).runFrom s =
        (m.lines.forM (runLine (lineTo n) m [])).runFrom
          (s.withGlobals (s.globals.set ('$' :: v) (ofInt a))) := by
      have hline := line_loopCall hu hs hloops hpage hm hparameters hown (lineTo n) (isListed_ofInt a)
        (isUnreserved_of_isDigit fun _ hc => mem_ofInt hc)
      exact (loopCall_run hs.defining (.inr rfl)).trans hline
    obtain ⟨hpass, hlater⟩ := (Bool.and_eq_true_iff ..).mp hsmall
    obtain ⟨vars, hlinesrun, hhold⟩ := runLines_updates (lineTo n) []
      (s := s.withGlobals (s.globals.set ('$' :: v) (ofInt a))) hbody hlines hown (hvars.bind v a) hpass
    have hhold' : vars.Hold names (body.foldl (fun env w => w.run env) (Function.update env v a)) :=
      (forall_mem_cons.mp hhold).2
    obtain ⟨vars', hrest, hfinal⟩ := ih (s := s.withGlobals vars) (hs.withGlobals vars) hloops hpage hm hhold' hlater
    refine ⟨vars', ?_, hfinal⟩
    rw [map_cons, runFrom_forM_cons_ok (hcall.trans hlinesrun)]
    exact hrest

end Called

end Compile

/-! ## Collecting the lines -/

/-- A loop of updates at the left edge is being collected. -/
structure Records (u v : Text) (items : List Text) (vars : Variables) (output : Text) (body : List Update)
    (s : Session) : Prop where
  vacant : s.Vacant u
  loop : ∃ i m, s.loops = [⟨Compile.loopName i, 0, items⟩] ∧ s.methods.get? (Compile.loopName i) = some m ∧
    m.parameters = ['$' :: v] ∧ m.ownVariables = false ∧ List.Forall₂ Update.KeptIn body m.lines
  globals : s.globals = vars
  placed : ∃ rest, s.elements = none :: rest
  fresh : s.indentation.fresh = false
  output : s.output = output

namespace Records
variable {u v e output : Text} {items : List Text} {vars : Variables} {body : List Update} {s : Session} {w : Update}

theorem start (handle : Handler) (h : IsHeader v items) (hu : isUnit u) (he : LineEnd e)
    (hs : s.Vacant u) (hloops : s.loops = []) (hroom : s.page.room ≤ s.elements.length)
    (hv : s.globals.get? ('$' :: v) = none) :
    ∃ t, (line handle (sourceLine u 0 (loopText v items) e)).runFrom s = (.ok (), t) ∧
      Records u v items s.globals s.output [] t := by
  have hline := line_loop_vacant handle h hu he hs hv
  rw [if_pos hroom] at hline
  have hvacant := hs.edge
  refine ⟨_, hline, ⟨?_, ⟨s.loopCount, _, ?_, Table.get?_set_self _ _ _, rfl, rfl, .nil⟩, rfl, ⟨_, rfl⟩, rfl, rfl⟩⟩
  · exact ⟨hvacant.block, hvacant.defining, hvacant.unit, hvacant.level, hvacant.entries, hvacant.kinds⟩
  · change Loop.mk _ _ _ :: s.loops = _
    rw [hloops]
    rfl

variable (h : Records u v items vars output body s)
include h

theorem add (handle : Handler) (hu : isUnit u) (he : LineEnd e)
    (hw : w.IsSound) (hundeclared : declaresVerbatim w.written = false) :
    ∃ t, (line handle (sourceLine u 1 w.written e)).runFrom s = (.ok (), t) ∧
      Records u v items vars output (body ++ [w]) t := by
  obtain ⟨i, m, hloops, hm, hparameters, hown, hlines⟩ := h.loop
  have hs := h.vacant
  have hsolid := Update.solid_written hw
  have hreads : s.Reads u 1 := hs.reads (Nat.le_refl 1)
  have hunit : (s.learn u 1).indentation.unit = some u := rfl
  have hkind := blockName_of_mem (Update.mem_before_written w) hs
  have hline : (line handle (sourceLine u 1 w.written e)).runFrom s =
      (loopLine handle (sourceLine u 1 w.written e)).runFrom (s.learn u 1) :=
    line_open hsolid (by simp [Update.written]) (shorthand_eq_self (Update.bracket_not_mem hw hu he)) hundeclared hu he hs.block hkind
      hs.defining hreads (by simp [hloops])
  have hadds := loopLine_adds handle hsolid rfl hu he (depthOf_learnt hsolid hu hreads) hunit hloops hm
    (Nat.zero_lt_one)
  have hadded : (m.addLine (sourceLine u (1 - 0 - 1) w.written e) []).lines =
      m.lines ++ [⟨false, Assignment.expand (w.written ++ e), []⟩] := rfl
  refine ⟨_, hline.trans hadds, ⟨?_, ⟨i, _, hloops, Table.get?_set_self _ _ _, hparameters, hown, ?_⟩, h.globals,
    h.placed, h.fresh, h.output⟩⟩
  · exact ⟨hs.block, hs.defining, .inl rfl, Int.one_nonneg, hs.entries, hs.kinds⟩
  · rw [hadded]
    exact rel_append hlines (.cons (Update.keptIn w he []) .nil)

theorem adds (handle : Handler) (hu : isUnit u) {more : List Update} {xs : List Text}
    (hxs : Forall₂ IsEnded (more.map fun w => u ++ w.written) xs)
    (hmore : ∀ w ∈ more, w.IsSound ∧ declaresVerbatim w.written = false) :
    ∃ t, (xs.forM (line handle)).runFrom s = (.ok (), t) ∧
      Records u v items vars output (body ++ more) t := by
  induction more generalizing xs body s with
  | nil =>
    cases hxs
    exact ⟨s, rfl, by rwa [append_nil]⟩
  | cons w more ih =>
    cases hxs with | cons hx hxs =>
    obtain ⟨e, he, rfl⟩ := hx
    obtain ⟨hw, hundeclared⟩ := hmore w mem_cons_self
    obtain ⟨t, hfirst, ht⟩ := h.add handle hu he hw hundeclared
    obtain ⟨t', hrest, ht'⟩ := ih ht hxs (forall_mem_cons.mp hmore).2
    refine ⟨t', ?_, by simpa using ht'⟩
    have hline : u ++ w.written ++ e = sourceLine u 1 w.written e := by simp [sourceLine]
    rw [hline, runFrom_forM_cons_ok hfirst]
    exact hrest

theorem closeAll (handle : Handler) {P : Variables → Prop}
    (hcalls : ∀ (t : Session) (i : Nat) (m : Method), t.Vacant u → t.loops = [] → t.page.InLoop → t.globals = vars →
      t.methods.get? (loopName i) = some m → m.parameters = ['$' :: v] → m.ownVariables = false →
      Forall₂ Update.KeptIn body m.lines →
      ∃ vars', (items.forM (loopCall handle ⟨loopName i, 0, items⟩)).runFrom t =
        (.ok (), t.withGlobals vars') ∧ P vars') :
    ∃ t, (closeAll handle).runFrom s = (.ok (), t) ∧ P t.globals ∧ t.output = output := by
  obtain ⟨i, m, hloops, hm, hparameters, hown, hlines⟩ := h.loop
  have hs := h.vacant
  have hvacant : (s.popLoop 0 []).Vacant u := ⟨hs.block, hs.defining, hs.unit, Int.le_refl 0, hs.entries, hs.kinds⟩
  obtain ⟨vars', hrun, hP⟩ := hcalls (s.popLoop 0 []) i m hvacant rfl ⟨h.placed, rfl, h.fresh⟩ h.globals hm hparameters
    hown hlines
  have hunroll := unrollAll_once hloops ((unrollLoop_run hloops).trans hrun) rfl
  exact ⟨_, closeAll_vacant hs.block hs.defining hunroll hs.entries, hP, h.output⟩

end Records
end OutlineMarkup
