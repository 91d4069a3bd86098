import OutlineMarkup.Proofs.Colours
import OutlineMarkup.Proofs.Rendering
import OutlineMarkup.Proofs.UpdateLoops

/-!
# Compound assignments alone and in loops

In a loop a compound assignment sets its variable and writes nothing, and it counts colours as numbers. At
the left edge a formula with a colour is rejected; otherwise the variable is set, and then its value
is taken for the name of an element. Main statement: what both lines do as long as no value is long, and
that they never do the same where a line can be placed.
-/

namespace OutlineMarkup
open Text List Action Arithmetic Method

/-! ## Numbers and colours as values -/

/-- What a variable holds that formulas compute with. -/
inductive Amount where
  | number (v : Int)
  | colour (code : Text)
  deriving Repr, DecidableEq

namespace Amount

def written : Amount → Text
  | number v => Text.ofInt v
  | colour code => '#' :: code

def formula : Amount → Formula
  | number v => .ofInt v
  | colour code => .operand (.colour code)

def value : Amount → Int
  | number v => v
  | colour code => (Colour.toNumber code).toOption.getD 0

def isSound : Amount → Bool
  | number _ => true
  | colour code => (Operand.colour code).isSound

theorem written_formula (a : Amount) : a.formula.written = a.written := by
  cases a with
  | number v => exact Formula.flatMap_ofInt v
  | colour code => exact append_nil _

theorem value_formula (a : Amount) (env : Text → Int) : a.formula.value env = a.value := by
  cases a with
  | number v => exact Formula.value_ofInt env v
  | colour code => rfl

theorem isSmall_formula (a : Amount) (env : Text → Int) : a.formula.isSmall env = fitsWord a.value := by
  cases a with
  | number v => exact Formula.isSmall_ofInt env v
  | colour code => rfl

theorem isValue {a : Amount} (h : a.isSound) : a.formula.IsValue := by
  cases a with
  | number v => exact Formula.isValue_ofInt v
  | colour code =>
    refine ⟨rfl, Nat.le_succ 11, fun o ho => ?_⟩
    obtain rfl := mem_singleton.mp ho
    exact ⟨h, fun name heq => by cases heq⟩

end Amount

namespace Update
variable {w : Update} {a : Amount} {o : Operator} {vars : Variables}

/-- The formula that is computed, with the value of the variable in its place. -/
def filled (w : Update) (a : Amount) : Formula := w.full.bind (Operand.filled fun _ => a.formula)

def filledText (w : Update) (a : Amount) : Text := (w.fullSpelling.bind (Operand.filled fun _ => a.formula)).text

def isColoured (w : Update) (a : Amount) : Bool := !(w.filled a).isNumeric

/-- What a loop leaves in the variable: a colour, if there were any. -/
def outcome (w : Update) (a : Amount) : Text :=
  let v := w.full.value fun _ => a.value
  if w.isColoured a then '#' :: Colour.ofNumber (Colour.clamp v) else Text.ofInt v

theorem isSpelled_filled (hw : w.IsSound) (ha : a.isSound) :
    (w.filled a).IsSpelled (w.fullSpelling.bind (Operand.filled fun _ => a.formula)) :=
  (isSpelled_full hw).1.filled fun _ _ => a.isValue ha

theorem value_filled (w : Update) (a : Amount) :
    (w.filled a).value (fun _ => a.value) = w.full.value fun _ => a.value :=
  Formula.value_filled (fun _ => a.value_formula _) _

theorem isSmall_filled (hsmall : w.full.isSmall fun _ => a.value) : (w.filled a).isSmall fun _ => a.value :=
  Formula.isSmall_filled (fun _ => a.value_formula _) (fun _ => a.isSmall_formula _) hsmall

theorem isClosed_filled (ha : a.isSound) : (w.filled a).IsClosed := by
  intro name hname
  rw [filled, Formula.operands_bind] at hname
  obtain ⟨o, _, hname⟩ := mem_flatMap.mp hname
  cases o with
  | number n => cases mem_singleton.mp hname
  | reference other => exact ((a.isValue ha).operands _ hname).2 name rfl
  | colour code => cases mem_singleton.mp hname

theorem resolve_full (hw : w.IsSound) (ha : a.isSound)
    (hvars : ∀ name, .reference name ∈ w.full.operands → vars.get? ('$' :: name) = some a.written) :
    Reference.resolve vars w.fullSpelling.text [] = .ok (w.filledText a) := by
  refine (isSpelled_full hw).1.resolve (fun _ _ => a.isValue ha) fun name hname => ?_
  rw [a.written_formula]
  exact hvars name hname

theorem isComputed_filled (ho : w.operator = some o) (a : Amount) : (w.filled a).isComputed := by
  refine Formula.isComputed_bind ?_ _
  rw [full, ho]
  rfl

theorem evaluate_filled (hw : w.IsSound) (ho : w.operator = some o) (ha : a.isSound)
    (hvars : ∀ name, .reference name ∈ w.full.operands → vars.get? ('$' :: name) = some a.written)
    (hcodes : (w.filled a).codes.Pairwise fun c d => c ≠ d → ¬ c <+: d)
    (hsmall : w.full.isSmall fun _ => a.value) :
    evaluate vars w.fullSpelling.text = .ok (w.outcome a) := by
  have hspelled := isSpelled_filled hw ha
  have hsolid := hspelled.solid (Formula.head?_bind (isSpelled_full hw).2)
  have hpart : computePart (w.filledText a) = .ok (w.outcome a) := by
    have hpart := hspelled.computePart_text (isClosed_filled ha) hcodes (fun _ => a.value) (isComputed_filled ho a)
      (isSmall_filled hsmall) 0
    rw [replicate_zero, append_nil] at hpart
    rw [outcome, isColoured, ← value_filled]
    refine hpart.trans ?_
    cases (w.filled a).isNumeric <;> rfl
  rw [evaluate, resolve_full hw ha hvars]
  change (if isCall (trim (w.filledText a)) then _ else computePart (w.filledText a)) = _
  rw [filledText, hsolid.trim_eq, Formula.isCall_text]
  exact hpart

theorem compute_filled (hw : w.IsSound) (ha : a.isSound) (hsmall : w.full.isSmall fun _ => a.value) :
    if w.isColoured a then ∃ f, compute (w.filledText a) = .error f
    else compute (w.filledText a) = .ok (w.outcome a) := by
  have hspelled := isSpelled_filled hw ha
  cases hnumeric : (w.filled a).isNumeric with
  | true =>
    have hplain : w.isColoured a = false := by rw [isColoured, hnumeric]; rfl
    have hresult := Formula.result_text hspelled.fits hnumeric hspelled.signs (isSmall_filled hsmall) 0
    rw [replicate_zero, append_nil] at hresult
    rw [if_neg (by simp [hplain]), outcome, hplain, ← value_filled, compute, filledText, hresult]
    rfl
  | false =>
    have hcoloured : w.isColoured a := by rw [isColoured, hnumeric]; rfl
    rw [if_pos hcoloured, compute, filledText,
      hspelled.result_eq_malformed (isClosed_filled ha).isLiteral hnumeric]
    exact ⟨_, rfl⟩

end Update

/-! ## The line at the left edge -/

namespace Compile
variable {handle : Handler} {u e : Text} {s : Session} {w : Update} {o : Operator} {a : Amount}

theorem isCompound_written (ho : w.operator = some o) (e : Text) : Assignment.isCompound (w.written ++ e) := by
  refine any_eq_true.mpr ⟨([o.char, '='], o.char), by cases o <;> decide, ?_⟩
  rw [has_iff_isInfix]
  refine ⟨('$' :: w.target) ++ replicate w.space ' ', w.spelling.text ++ e, ?_⟩
  simp [Update.written, Update.sign, ho]

theorem assignCompound_run (hw : w.IsSound) (ho : w.operator = some o) (he : LineEnd e) (ha : a.isSound)
    (hvars : ∀ name, .reference name ∈ w.full.operands → s.globals.get? ('$' :: name) = some a.written) :
    (assignCompound (w.written ++ e)).runFrom s = match compute (w.filledText a) with
      | .error f => (.error f, s)
      | .ok r => (.ok ('$' :: w.target), s.withGlobals (s.globals.set ('$' :: w.target) r)) := by
  obtain ⟨left, right, hsplit, _, hright⟩ := Update.split_expand hw he
  have htarget : Assignment.target (w.written ++ e) = '$' :: w.target := by
    have hcut : w.written ++ e = (('$' :: w.target) ++ replicate w.space ' ') ++
        o.char :: '=' :: (w.spelling.text ++ e) := by
      simp [Update.written, Update.sign, ho]
    rw [hcut, Assignment.target_compound o.mem_operators (Update.equals_not_mem_target hw) (Update.equals_not_mem_spelling hw he),
      Update.trim_target hw]
  have hbracket : (w.filledText a).has "][" = false :=
    has_eq_false_of_not_mem (c := '[') (by decide) ((Update.isSpelled_filled hw ha).not_mem_text (by decide))
  have hresolve : (resolve right.trim []).runFrom s = (.ok (w.filledText a), s) := by
    simp [resolve, hright, runFrom_bind, Update.resolve_full hw ha hvars, arrayIndex_eq_self hbracket]
  simp only [assignCompound, hsplit, htarget, runFrom_bind, hresolve, runFrom_liftM]
  cases compute (w.filledText a) with
  | error f | ok r => rfl

theorem read_ofInt (v : Int) : Definition.read (ofInt v) = .ok ⟨ofInt v, []⟩ := by
  have hsolid := (simple_of_isListed (isListed_ofInt v)).solid
  have hparen : (ofInt v).hasChar '(' = false := (hasChar_eq_false_iff _ _).mpr (not_mem_ofInt rfl)
  have hcolon : (ofInt v).replace ":" [] = ofInt v :=
    replace_eq_self_of_not_mem (c := ':') (by decide) (not_mem_ofInt rfl) _
  rw [Definition.read, hsolid.trim_eq, hparen, if_neg Bool.false_ne_true, hcolon]

theorem markupLine_ofInt (handle : Handler) (hs : s.Vacant u) (v : Int)
    (hmethod : s.methods.get? (ofInt v) = none) : let run := (markupLine handle 0 [] (ofInt v)).runFrom s
    let written := decide (s.page.room ≤ s.elements.length) && (s.tags.key? (ofInt v)).isSome
    (run.1 = .ok () ↔ written) ∧ run.2.globals = s.globals ∧
      run.2.output = s.output ++ if written then '<' :: (ofInt v ++ ">\n") else [] := by
  obtain ⟨c, hc, _⟩ := (simple_of_isListed (isListed_ofInt v)).solid.head
  have hquote : isQuote c = false := by
    simp only [isQuote, Bool.or_eq_false_iff, beq_eq_false_iff_ne]
    exact ⟨fun h => not_mem_ofInt (c := '"') rfl (h ▸ List.mem_of_mem_head? hc),
      fun h => not_mem_ofInt (c := '\'') rfl (h ▸ List.mem_of_mem_head? hc)⟩
  have hrun : (markupLine handle 0 [] (ofInt v)).runFrom s =
      (definitionLine handle 0 [] ⟨ofInt v, []⟩).runFrom s := by
    simp only [markupLine, Action.runFrom_bind,
      resolve_run (not_mem_ofInt rfl) (not_mem_ofInt rfl) (not_mem_ofInt rfl), hc, hquote,
      Bool.false_eq_true, if_false, read_ofInt, Action.runFrom_liftM]
  have hopening : '\\' ∉ (Definition.tags ⟨ofInt v, []⟩).1 := by
    change '\\' ∉ '<' :: (ofInt v ++ ">\n")
    simp [not_mem_ofInt (c := '\\') rfl]
  dsimp only
  rw [hrun, definitionLine_element hmethod]
  cases hkey : s.tags.key? (ofInt v) with
  | none =>
    have hcheck : checkElement s.tags ⟨ofInt v, []⟩ = .error (.rejected (.unknownTag (ofInt v))) := by
      rw [checkElement, hkey]
    rw [hcheck]
    simp
  | some key =>
    have hcheck : checkElement s.tags ⟨ofInt v, []⟩ = .ok () := by
      rw [checkElement, hkey]
      dsimp only
      split <;> rfl
    rw [hcheck]
    dsimp only
    rw [writeLine_edge hs hopening]
    split
    · rename_i hroom
      simp only [hroom, decide_true, Option.isSome_some, Bool.and_self, if_true]
      refine ⟨by simp, rfl, ?_⟩
      simp [Session.output]
      rfl
    · rename_i hroom
      simp [hroom]
      rfl

section Line
variable (handle) (hu : isUnit u) (he : LineEnd e) (hs : s.Vacant u) (hloops : s.loops = []) (hw : w.IsSound)
  (hundeclared : declaresVerbatim w.written = false) (ho : w.operator = some o) (ha : a.isSound)
  (hvars : ∀ name, .reference name ∈ w.full.operands → s.globals.get? ('$' :: name) = some a.written)
include hu he hs hloops hw hundeclared ho ha hvars

theorem line_compound : (line handle (sourceLine u 0 w.written e)).runFrom s = match compute (w.filledText a) with
      | .error f => (.error f, s)
      | .ok r => (markupLine handle 0 [] r).runFrom (s.withGlobals (s.globals.set ('$' :: w.target) r)) := by
  have hsolid := Update.solid_written hw
  have htrim := hsolid.trim_sourceLine (k := 0) hu he
  have hdefining := Session.isDefining_eq_false hs.defining
  have hlearn : s.learn u 0 = s := rfl
  have hline : sourceLine u 0 w.written e = w.written ++ e := rfl
  have hstart : isLoopStart w.written = false := rfl
  have hmethod : isMethodStart (w.written ++ e) = false := rfl
  have hsign : w.written.has Assignment.sign = false := by
    refine has_eq_false_of_not_mem (c := ':') (by decide) ?_
    have hop : o.char ≠ ':' := by cases o <;> decide
    have htarget := count_eq_zero.mp (Update.count_target hw (c := ':') rfl ⟨by decide, by decide⟩)
    have hspelled : ':' ∉ w.spelling.text := hw.spelled.not_mem_text (by decide)
    simp only [mem_append, not_or] at htarget
    simp only [Update.written, Update.sign, ho, mem_append, not_or]
    exact ⟨htarget.1, htarget.2, by simp [hop.symm], hspelled⟩
  have hassign := assignCompound_run hw ho he ha hvars
  rw [line_unnamed hu (hs.reads (Nat.zero_le 1)) hs.block (blockName_of_mem (Update.mem_before_written w) hs) hsolid
    (by simp [Update.written]) he (shorthand_eq_self (Update.bracket_not_mem hw hu he)), hlearn]
  rw [hline] at htrim ⊢
  have hdeclared : (declarationLine handle 0 (w.written ++ e)).runFrom s = match compute (w.filledText a) with
      | .error f => (.error f, s)
      | .ok r => (.ok (some r), s.withGlobals (s.globals.set ('$' :: w.target) r)) := by
    simp only [declarationLine, htrim, hsign, Bool.false_eq_true, if_false, isCompound_written ho, if_true,
      runFrom_bind, hassign]
    cases compute (w.filledText a) with
    | error f => rfl
    | ok r =>
      simp only [runFrom_get, runFrom_pure]
      rw [Session.withGlobals, Table.get?_set_self]
  simp only [plainLine, runFrom_bind, runFrom_get, htrim, hundeclared, hdefining, hloops, hstart, hmethod,
    Bool.false_eq_true, if_false, isEmpty_nil, Bool.not_true, Bool.or_self, Bool.and_false, hdeclared]
  cases compute (w.filledText a) with
  | error f | ok r => rfl

/-- Alone the line is rejected with a colour; otherwise it sets its variable, and then places the value
as an element. -/
theorem compound_alone (hsmall : w.full.isSmall fun _ => a.value)
    (hvalue : s.globals.get? ('$' :: w.target) = some a.written)
    (hmethod : s.methods.get? (w.outcome a) = none) :
    let alone := (line handle (sourceLine u 0 w.written e)).runFrom s
    let accepted := decide (s.page.room ≤ s.elements.length) && !w.isColoured a && (s.tags.key? (w.outcome a)).isSome
    (alone.1 = .ok () ↔ accepted) ∧
      alone.2.globals.get? ('$' :: w.target) = some (if w.isColoured a then a.written else w.outcome a) ∧
      alone.2.output = s.output ++ if accepted then '<' :: (w.outcome a ++ ">\n") else [] := by
  have hcompute := Update.compute_filled hw ha hsmall
  dsimp only
  rw [line_compound handle hu he hs hloops hw hundeclared ho ha hvars]
  cases hcoloured : w.isColoured a with
  | true =>
    rw [hcoloured, if_pos rfl] at hcompute
    obtain ⟨f, hf⟩ := hcompute
    rw [hf]
    simp [hvalue]
  | false =>
    have houtcome : w.outcome a = ofInt (w.full.value fun _ => a.value) := by
      rw [Update.outcome, hcoloured]
      rfl
    rw [hcoloured, if_neg Bool.false_ne_true, houtcome] at hcompute
    rw [houtcome] at hmethod ⊢
    rw [hcompute]
    obtain ⟨hok, hglobals, houtput⟩ := markupLine_ofInt handle
      (hs.withGlobals (s.globals.set ('$' :: w.target) (ofInt (w.full.value fun _ => a.value)))) _ hmethod
    dsimp only
    rw [hglobals, houtput, hok, Bool.not_false, Bool.and_true, if_neg Bool.false_ne_true]
    exact ⟨Iff.rfl, Table.get?_set_self _ _ _, rfl⟩

end Line

/-! ## The line in a loop -/

/-- The line as the body of a loop over one item, which the end of the file ends. -/
def inLoop (handle : Text → Compile Unit) (u v x : Text) (w : Update) (e : Text) : Compile Unit := do
  handle (sourceLine u 0 (loopText v [x]) ['\n'])
  handle (sourceLine u 1 w.written e)
  closeAll handle

theorem inLoop_run {n : Nat} {v x : Text} (h : IsLoop v [x]) (hu : isUnit u) (he : LineEnd e)
    (hs : s.Vacant u) (hloops : s.loops = []) (hroom : s.page.room ≤ s.elements.length)
    (hv : s.globals.get? ('$' :: v) = none) (hw : w.IsSound) (hundeclared : declaresVerbatim w.written = false)
    {value : Text} (hvalue : evaluate (s.globals.set ('$' :: v) x) w.fullSpelling.text = .ok value) :
    ∃ t, (inLoop (lineTo (n + 1)) u v x w e).runFrom s = (.ok (), t) ∧
      t.globals.get? ('$' :: w.target) = some value ∧ t.output = s.output := by
  obtain ⟨s₁, hstart, hs₁⟩ := Records.start (lineTo n) h.header hu (.inr rfl) hs hloops hroom hv
  obtain ⟨s₂, hbody, hs₂⟩ := hs₁.add (lineTo n) hu he hw hundeclared
  obtain ⟨t, hclose, hfinal, houtput⟩ := hs₂.closeAll (lineTo (n + 1))
    (P := fun vars => vars.get? ('$' :: w.target) = some value)
    fun t i m ht hloops hpage hglobals hm hparameters hown hlines => by
      have hlisted := h.header.words x mem_cons_self
      have hline := line_loopCall hu ht hloops hpage hm hparameters hown (lineTo n) hlisted
        (h.isUnreserved_item mem_cons_self)
      obtain ⟨l, rest, hl, hrest, hlines⟩ := forall₂_cons_left_iff.mp hlines
      obtain rfl := forall₂_nil_left_iff.mp hrest
      rw [← hglobals] at hvalue
      have hset := runLine_update (s := t.withGlobals (t.globals.set ('$' :: v) x)) (lineTo n) [] hw hl hown hvalue
      refine ⟨(t.globals.set ('$' :: v) x).set ('$' :: w.target) value, ?_, Table.get?_set_self _ _ _⟩
      rw [hlines, runFrom_forM_cons_ok hset] at hline
      have hcall : (loopCall (lineTo (n + 1)) ⟨loopName i, 0, [x]⟩ x).runFrom t = _ :=
        (loopCall_run ht.defining (.inr rfl)).trans hline
      exact runFrom_forM_cons_ok hcall []
  refine ⟨t, ?_, hfinal, houtput⟩
  rw [inLoop, runFrom_bind_ok (x := lineTo (n + 1) _) hstart, runFrom_bind_ok (x := lineTo (n + 1) _) hbody]
  exact hclose

/-- Both runs succeed or fail alike, leave the same value and write nothing. -/
def Agree (s : Session) (name : Text) (x y : Except Fault Unit × Session) : Prop :=
  (x.1 = .ok () ↔ y.1 = .ok ()) ∧ x.2.globals.get? name = y.2.globals.get? name ∧
    x.2.output = s.output ∧ y.2.output = s.output

/-- If no value is long, in a loop the line sets its variable and writes nothing, wherever a line can be placed. Alone it is
rejected with a colour; otherwise it sets the variable, and then places the value as an
element, if there is one of this name. So the two agree only where no line can be placed. -/
theorem compound_alone_or_in_loop (n : Nat) {v x : Text} (hu : isUnit u = true) (he : LineEnd e) (hs : s.Vacant u)
    (hloops : s.loops = []) (hloop : IsLoop v [x]) (hv : s.globals.get? ('$' :: v) = none) (hw : w.IsSound)
    (ho : w.operator = some o) (hclosed : w.formula.IsClosed) (htarget : isDeclaring w.target = false)
    (ha : a.isSound = true) (hcodes : (w.filled a).codes.Pairwise fun c d => c ≠ d → ¬ c <+: d)
    (hsmall : w.full.isSmall (fun _ => a.value) = true)
    (hvalue : s.globals.get? ('$' :: w.target) = some a.written) (hmethod : s.methods.get? (w.outcome a) = none) :
    let looped := (inLoop (lineTo (n + 1)) u v x w e).runFrom s
    let alone := (lineTo (n + 1) (sourceLine u 0 w.written e)).runFrom s
    let placed := decide (s.page.room ≤ s.elements.length)
    let accepted := placed && !w.isColoured a && (s.tags.key? (w.outcome a)).isSome
    (looped.1 = .ok () ↔ placed = true) ∧
      looped.2.globals.get? ('$' :: w.target) = some (if placed then w.outcome a else a.written) ∧
      looped.2.output = s.output ∧
      (alone.1 = .ok () ↔ accepted = true) ∧
      alone.2.globals.get? ('$' :: w.target) = some (if w.isColoured a then a.written else w.outcome a) ∧
      (alone.2.output = s.output ++ if accepted then '<' :: (w.outcome a ++ ">\n") else []) ∧
      (Agree s ('$' :: w.target) alone looped ↔ placed = false ∧ (w.isColoured a = true ∨ w.outcome a = a.written)) := by
  have hundeclared := Update.declaresVerbatim_written hw htarget fun name hname => absurd hname (hclosed name)
  have hoperands : ∀ name, .reference name ∈ w.full.operands → name = w.target := by
    intro name hname
    rw [Update.full, ho] at hname
    rcases List.mem_cons.mp hname with hname | hname
    · exact Operand.reference.inj hname
    · exact absurd hname (hclosed name)
  have hne : '$' :: w.target ≠ '$' :: v := fun heq => by
    rw [heq, hv] at hvalue
    cases hvalue
  have halone := compound_alone (lineTo n) hu he hs hloops hw hundeclared ho ha
    (fun name hname => hoperands name hname ▸ hvalue) hsmall hvalue hmethod
  have hlooped : if s.page.room ≤ s.elements.length then
      ∃ t, (inLoop (lineTo (n + 1)) u v x w e).runFrom s = (.ok (), t) ∧
        t.globals.get? ('$' :: w.target) = some (w.outcome a) ∧ t.output = s.output
      else (inLoop (lineTo (n + 1)) u v x w e).runFrom s = (.error .outOfRange, { s with elements := [] }) := by
    split
    · rename_i hroom
      refine inLoop_run hloop hu he hs hloops hroom hv hw hundeclared ?_
      refine Update.evaluate_filled hw ho ha (fun name hname => ?_) hcodes hsmall
      rw [hoperands name hname, Table.get?_set_ne _ hne, hvalue]
    · rename_i hroom
      have hheader := line_loop_vacant (lineTo n) hloop.header hu (Or.inr rfl) hs hv
      rw [if_neg hroom] at hheader
      exact Action.runFrom_bind_error hheader
  have hline : lineTo (n + 1) = line (lineTo n) := funext fun _ => rfl
  rw [← hline] at halone
  obtain ⟨hok, hset, houtput⟩ := halone
  by_cases hroom : s.page.room ≤ s.elements.length
  · rw [if_pos hroom] at hlooped
    obtain ⟨t, hrun, hglobals, hwritten⟩ := hlooped
    simp only [decide_eq_true hroom] at hok houtput ⊢
    rw [hrun]
    refine ⟨by simp, hglobals, hwritten, hok, hset, houtput, ?_⟩
    simp only [Bool.true_eq_false, false_and, iff_false]
    -- An element is written if the line succeeds.
    rintro ⟨hboth, _, hsilent, _⟩
    rw [houtput, if_pos (hok.mp (hboth.mpr rfl))] at hsilent
    simp at hsilent
  · rw [if_neg hroom] at hlooped
    simp only [decide_eq_false hroom, Bool.false_and, Bool.false_eq_true, if_false, List.append_nil] at hok houtput ⊢
    rw [hlooped]
    refine ⟨by simp, hvalue, rfl, hok, hset, houtput, ?_⟩
    have hboth : ((lineTo (n + 1) (sourceLine u 0 w.written e)).runFrom s).1 = .ok () ↔
        (Except.error Fault.outOfRange : Except Fault Unit) = .ok () := by
      rw [hok]
      simp
    have hsame : Agree s ('$' :: w.target) ((lineTo (n + 1) (sourceLine u 0 w.written e)).runFrom s)
        (.error .outOfRange, { s with elements := [] }) ↔
        some (if w.isColoured a then a.written else w.outcome a) = some a.written := by
      rw [← hset, ← hvalue]
      exact ⟨fun h => h.2.1, fun h => ⟨hboth, h, houtput, rfl⟩⟩
    rw [hsame]
    cases w.isColoured a <;> simp

def sampleSum : Update :=
  ⟨"a", 1, some .plus, .binary .times (.operand (.number 2)) (.group (.negative (.operand (.number 5)))),
    [(1, .operand (.number 2)), (0, .operator .times), (0, .opening), (0, .operator .minus), (0, .operand (.number 5)),
      (0, .closing)]⟩

def sampleShade : Update :=
  ⟨"a", 1, some .minus, .operand (.colour "101010"), [(1, .operand (.colour "101010"))]⟩

def holding (a : Amount) : Session := { tags := Document.sampleTags, globals := [("$a", a.written)] }

theorem compound_alone_or_in_loop_sample :
    sampleSum.written = "$a += 2*(-5)" ∧ sampleShade.written = "$a -= #101010" ∧
      ((lineTo 1 "$a += 2*(-5)\n").runFrom (holding (.number 17))).2.output = "<7>\n" ∧
      ((inLoop (lineTo 1) "\t" "i" "x" sampleSum ['\n']).runFrom
        (holding (.number 17))).2.output = [] ∧
      ((lineTo 1 "$a -= #101010\n").runFrom (holding (.colour "fff"))).1 ≠ .ok () ∧
      ((inLoop (lineTo 1) "\t" "i" "x" sampleShade ['\n']).runFrom
        (holding (.colour "fff".toList))).2.globals.get? "$a".toList = some "#efefef".toList := by
  have hvacant : ∀ a : Amount, (holding a).Vacant "\t" := fun a =>
    ⟨rfl, rfl, Or.inr rfl, Int.le_refl 0, (fun _ h => nomatch h), (fun _ h => nomatch h)⟩
  have hsum := compound_alone_or_in_loop (s := holding (.number 17)) (u := "\t") (v := "i")
    (x := "x") (e := ['\n']) (w := sampleSum) (o := .plus) (a := .number 17) 0 (by decide) (Or.inr rfl)
    (hvacant _) rfl (by decide) (by decide) (by decide) rfl
    (by simp [Formula.IsClosed, sampleSum, Formula.operands]) (by decide) rfl (by decide) (by decide +kernel) rfl rfl
  have hshade := compound_alone_or_in_loop (s := holding (.colour "fff")) (u := "\t")
    (v := "i") (x := "x") (e := ['\n']) (w := sampleShade) (o := .minus) (a := .colour "fff") 0
    (by decide) (Or.inr rfl) (hvacant _) rfl (by decide) (by decide) (by decide) rfl
    (by simp [Formula.IsClosed, sampleShade, Formula.operands]) (by decide) rfl (by decide) (by decide +kernel) rfl rfl
  have hseven : sampleSum.outcome (.number 17) = "7" := by decide +kernel
  have hdark : sampleShade.outcome (.colour "fff") = "#efefef" := by decide +kernel
  have hplain : sampleSum.isColoured (.number 17) = false := by decide +kernel
  have hcoloured : sampleShade.isColoured (.colour "fff") = true := by decide +kernel
  have hknown : ((holding (.number 17)).tags.key? "7").isSome = true := by decide +kernel
  have hline₁ : sourceLine "\t" 0 sampleSum.written ['\n'] = "$a += 2*(-5)\n" := by decide
  have hline₂ : sourceLine "\t" 0 sampleShade.written ['\n'] = "$a -= #101010\n" := by decide
  have hroom : ∀ a, (holding a).page.room ≤ (holding a).elements.length := fun _ => Nat.le_refl 0
  have hempty : ∀ a, (holding a).output = [] := fun _ => rfl
  have hname : '$' :: sampleShade.target = "$a" := by decide
  simp only [hline₁, hplain, hseven, hknown, decide_eq_true (hroom _), hempty, Bool.not_false, Bool.and_self, if_true,
    List.nil_append] at hsum
  simp only [hline₂, hname, hcoloured, hdark, decide_eq_true (hroom _), Bool.not_true, Bool.and_false, Bool.false_and,
    Bool.false_eq_true, iff_false, if_true, Nat.zero_add] at hshade
  obtain ⟨_, _, hsilent, _, _, hwritten, _⟩ := hsum
  obtain ⟨_, hdarker, _, hrejected, _⟩ := hshade
  exact ⟨by decide, by decide, hwritten.trans (by decide), hsilent, hrejected, hdarker⟩

end Compile

namespace Document

/-- The value is written as an element. -/
theorem compound_assignment_output :
    (compile sampleTags [("a", "$a := 3\n$a += 4\n")] "a").fault = none ∧
      (compile sampleTags [("a", "$a := 3\n$a += 4\n")] "a").output = "<7 />\n" ∧
      (compile sampleTags [("a", "$a := 3\nfor $i in [x]:\n\t$a += 4\n")] "a").output = [] := by
  decide +kernel

end Document
end OutlineMarkup
