import OutlineMarkup.Proofs.OpenLoops
import OutlineMarkup.Proofs.Rendering
import OutlineMarkup.Proofs.UpdateLoops

/-!
# Loops that compute

A document that gives whole numbers to variables and then updates them in a loop. If no value is long,
compiling it leaves in the variables what the updates give when they are carried out on the numbers, once
for every item of the loop, and writes nothing.
-/

namespace OutlineMarkup
open Text List Compile

/-! ## Declarations -/

def declarationText (x : Text) (v : Int) : Text := ('$' :: x) ++ (" := " ++ Text.ofInt v)

def Update.constant (x : Text) (v : Int) : Update :=
  ⟨x, 1, none, .ofInt v, Spelling.spread 1 (Formula.ofInt v).signs⟩

namespace Update

theorem written_constant (x : Text) (v : Int) : (constant x v).written = declarationText x v := by
  have htext := Formula.text_spread 1 (Formula.signs_ne_nil (.ofInt v))
  rw [Formula.flatMap_ofInt] at htext
  simp [constant, written, sign, declarationText, htext]

theorem isSound_constant {x : Text} (hx : x.isName) (v : Int) : (constant x v).IsSound :=
  ⟨hx, (Formula.fits_ofInt v).1, fun o ho => ((Formula.isValue_ofInt v).operands o ho).1, Formula.map_spread _ _⟩

theorem declaresVerbatim_constant {x : Text} (hx : x.isName) (hd : isDeclaring x = false) (v : Int) :
    declaresVerbatim (declarationText x v) = false := by
  rw [← written_constant]
  refine declaresVerbatim_written (isSound_constant hx _) hd fun name hname => ?_
  exact absurd rfl (((Formula.isValue_ofInt v).operands _ hname).2 name)

end Update

namespace Compile
variable {tags : TagTable} {u e x : Text} {s : Session}

theorem assign_declaration (hx : x.isName) (v : Int) :
    (assign (declarationText x v)).runFrom s = (.ok (), s.withGlobals (s.globals.set ('$' :: x) (ofInt v))) := by
  obtain ⟨_, _, _, _, hname⟩ := Template.isName_iff.mp hx
  have hsplit : (declarationText x v).split Assignment.sign = [('$' :: x) ++ [' '], ' ' :: ofInt v] := by
    have hcut : declarationText x v = (('$' :: x) ++ [' ']) ++ ':' :: '=' :: (' ' :: ofInt v) := by
      simp [declarationText]
    rw [hcut]
    refine split_pair (by decide) ?_ ?_
    · have hequals : '=' ∉ x := not_mem_of_all hname (by decide)
      simp [hequals]
    · simp [not_mem_ofInt (c := '=') rfl]
  have htarget : trimRight (('$' :: x) ++ [' ']) = '$' :: x := trimRight_append_solid (by simp [isBlank])
      (Update.solid_target (w := Update.constant x v) (Update.isSound_constant hx v))
  have hleft : trimLeft (' ' :: ofInt v) = ofInt v := by
    obtain ⟨c, hc, hblank⟩ := (simple_of_isListed (isListed_ofInt v)).solid.head
    obtain ⟨t, ht⟩ := head?_eq_some_iff.mp hc
    have hspace : isBlank ' ' := rfl
    rw [trimLeft, dropWhile_cons_of_pos hspace, ht, dropWhile_cons_of_neg (by simp [hblank])]
  have hresolve : (resolve (ofInt v) []).runFrom s = (.ok (ofInt v), s) :=
    resolve_run (not_mem_ofInt rfl) (not_mem_ofInt rfl) (not_mem_ofInt rfl)
  have hassign : assign (declarationText x v) = assignEach (ofInt v) [('$' :: x) ++ [' ']] := by
    rw [assign, hsplit]
    simp [hleft]
  have heach : (assignEach (ofInt v) [('$' :: x) ++ [' ']]).runFrom s =
      (setVariable ('$' :: x) (ofInt v)).runFrom s := by
    rw [assignEach, htarget]
    change (resolve (ofInt v) [] >>= fun value => setVariable ('$' :: x) value >>= fun _ =>
      assignEach (ofInt v) []).runFrom s = _
    rw [Action.runFrom_bind_ok hresolve]
    rfl
  rw [hassign, heach]
  rfl

theorem line_numberDeclaration (handle : Handler) (hx : x.isName) (hd : isDeclaring x = false) (v : Int)
    (hu : isUnit u) (he : LineEnd e) (hi : s.Idle tags u) :
    (line handle (sourceLine u 0 (declarationText x v) e)).runFrom s =
      (.ok (), s.withGlobals (s.globals.set ('$' :: x) (ofInt v))) := by
  have hw := Update.isSound_constant hx v
  have hsolid : Solid (declarationText x v) := Update.written_constant x v ▸ Update.solid_written hw
  have hfree : ∀ c : Char, (isFormulaChar c || c == ':' || c == '=') = false → c ∉ declarationText x v :=
    fun c hc => Update.written_constant x v ▸ Update.not_mem_written hw hc
  have hbracket : '[' ∉ sourceLine u 0 (declarationText x v) e := by
    simp only [sourceLine, mem_append, not_or]
    exact ⟨not_mem_times hu rfl, hfree _ (by decide), he.not_mem (by decide)⟩
  have htrim := hsolid.trim_sourceLine (k := 0) hu he
  have hdefining := Session.isDefining_eq_false hi.defining
  have hsign : (declarationText x v).has Assignment.sign := by
    rw [has_iff_isInfix]
    exact ⟨('$' :: x) ++ [' '], ' ' :: ofInt v, by simp [declarationText, Assignment.sign]⟩
  have hlearn : s.learn u 0 = s := rfl
  rw [line_eq_plainLine hu (hi.reads (Nat.zero_le _)) hi.block hi.verbatims hsolid (by simp [declarationText]) he
    (shorthand_eq_self hbracket), hlearn]
  have hstart : isLoopStart (declarationText x v) = false := rfl
  have hmethod : isMethodStart (sourceLine u 0 (declarationText x v) e) = false := rfl
  have hdeclared : (declarationLine handle 0 (sourceLine u 0 (declarationText x v) e)).runFrom s =
      (.ok none, s.withGlobals (s.globals.set ('$' :: x) (ofInt v))) := by
    simp only [declarationLine, htrim, hsign, if_true, Action.runFrom_bind, assign_declaration hx,
      Action.runFrom_pure]
  simp [plainLine, Action.runFrom_bind, htrim, Update.declaresVerbatim_constant hx hd, hdefining, hi.loops, hstart, hmethod, hdeclared]

end Compile

/-! ## The header of the loop -/

namespace Compile

theorem declaresVerbatim_ofInt (v : Int) {b : Text} (hb : ∀ c ∈ b.head?, isWordChar c = false) :
    declaresVerbatim (ofInt v ++ b) = declaresVerbatim b := by
  have hnumber : ∀ n : Nat, declaresVerbatim (ofNat n ++ b) = declaresVerbatim b := by
    intro n
    have hword := declaresVerbatim_append (a := ofNat n)
      (fun c hc => Operand.isWordChar_of_mem_word (o := .number n) rfl hc) hb
    have hdigits := Operand.isDeclaring_word (o := .number n) rfl (by simp)
    rw [hword]
    exact (congrArg (· || declaresVerbatim b) hdigits).trans (Bool.false_or _)
  cases v with
  | ofNat n => exact hnumber n
  | negSucc n => exact (declaresVerbatim_cons rfl).trans (hnumber (n + 1))

theorem declaresVerbatim_items (items : List Int) :
    declaresVerbatim (join (',' :: [' ']) (items.map ofInt) ++ "]:") = false := by
  induction items with
  | nil => rfl
  | cons v items ih =>
    cases items with
    | nil =>
      have hone : join (',' :: [' ']) [ofInt v] ++ "]:" = ofInt v ++ "]:" := by
        simp [join]
      rw [map_cons, map_nil, hone, declaresVerbatim_ofInt v (by simp; decide)]
      rfl
    | cons v' items =>
      have hcut : join (',' :: [' ']) ((v :: v' :: items).map ofInt) ++ "]:" =
          ofInt v ++ ',' :: (' ' :: (join (',' :: [' ']) ((v' :: items).map ofInt) ++ "]:")) := by
        simp [join]
      rw [hcut, declaresVerbatim_ofInt v (by simp; decide), declaresVerbatim_cons rfl, declaresVerbatim_cons rfl]
      exact ih

end Compile

theorem isHeader_integers {v : Text} {items : List Int} (hv : v.isName) (hd : isDeclaring v = false)
    (hitems : items ≠ []) : IsHeader v (items.map ofInt) := by
  obtain ⟨_, _, _, _, hname⟩ := Template.isName_iff.mp hv
  refine ⟨hv, by simpa using hitems, fun w hw => ?_, ?_⟩
  · obtain ⟨a, _, rfl⟩ := mem_map.mp hw
    exact isListed_ofInt a
  · have hcut : loopText v (items.map ofInt) = "for" ++ ' ' :: '$' :: (v ++ ' ' :: ("in" ++ ' ' ::
        '[' :: (join (',' :: [' ']) (items.map ofInt) ++ "]:"))) := by
      simp [loopText]
    have hwords : isDeclaring "for" = false ∧ isDeclaring "in" = false := by decide
    rw [hcut, declaresVerbatim_append_cons (by decide) rfl, declaresVerbatim_cons rfl,
      declaresVerbatim_append_cons hname rfl, declaresVerbatim_append_cons (by decide) rfl,
      declaresVerbatim_cons rfl, declaresVerbatim_items, hd, hwords.1, hwords.2]
    rfl

/-! ## Documents -/

/-- Variables with their first values, and a loop over whole numbers that updates them. -/
structure IntegerLoop where
  start : List (Text × Int)
  iterator : Text
  items : List Int
  body : List Update

namespace IntegerLoop

def names (p : IntegerLoop) : List Text := p.start.map (·.1)

def lines (u : Text) (p : IntegerLoop) : List Text :=
  p.start.map (fun x => declarationText x.1 x.2) ++
    loopText p.iterator (p.items.map Text.ofInt) :: p.body.map fun w => u ++ w.written

@[mk_iff] structure IsSound (p : IntegerLoop) : Prop where
  names : ∀ x ∈ p.iterator :: p.names, x.isName = true
  undeclared : ∀ x ∈ p.iterator :: p.names, isDeclaring x = false
  fresh : p.iterator ∉ p.names
  items : p.items ≠ []
  body : ∀ w ∈ p.body, w.IsOver (p.iterator :: p.names)

instance (p : IntegerLoop) : Decidable p.IsSound := decidable_of_iff' _ (isSound_iff p)

def first (p : IntegerLoop) : Text → Int := p.start.foldl (fun env x => Function.update env x.1 x.2) fun _ => 0

def pass (p : IntegerLoop) (env : Text → Int) (a : Int) : Text → Int :=
  p.body.foldl (fun env w => w.run env) (Function.update env p.iterator a)

def final (p : IntegerLoop) : Text → Int := p.items.foldl p.pass p.first

variable {p : IntegerLoop} {tags : TagTable} {u : Text}

theorem line_signs (h : p.IsSound) (hu : isUnit u) : ∀ l ∈ p.lines u, Unbroken l := by
  intro l hl
  rcases mem_append.mp hl with hl | hl
  · obtain ⟨⟨x, v⟩, hx, rfl⟩ := mem_map.mp hl
    have hname := h.names x (mem_cons_of_mem _ (mem_map_of_mem (f := (·.1)) hx))
    have hw := Update.isSound_constant hname v
    rw [← Update.written_constant]
    exact ⟨(Update.solid_written hw).ne_nil, Update.not_mem_written hw (by decide), Update.not_mem_written hw (by decide)⟩
  · rcases mem_cons.mp hl with rfl | hl
    · have hheader := isHeader_integers (h.names _ mem_cons_self) (h.undeclared _ mem_cons_self) h.items
      exact hheader.line_signs (k := 0) hu
    · obtain ⟨w, hw, rfl⟩ := mem_map.mp hl
      have hw := (h.body w hw).toIsSound
      have hsigns := indented_signs (k := 1) hu (Update.solid_written hw).ne_nil
        (Update.not_mem_written hw (by decide)) (Update.not_mem_written hw (by decide))
      rwa [times_one] at hsigns

theorem declarations_run (handle : Handler) (hu : isUnit u) {start : List (Text × Int)}
    {xs : List Text} (hxs : Forall₂ IsEnded (start.map fun x => declarationText x.1 x.2) xs)
    (hstart : ∀ x ∈ start, x.1.isName ∧ isDeclaring x.1 = false) {s : Session} (hi : s.Idle tags u)
    {names : List Text} {env : Text → Int} (hvars : s.globals.Hold names env) :
    ∃ vars, (xs.forM (line handle)).runFrom s = (.ok (), s.withGlobals vars) ∧
      vars.Hold (start.map (·.1) ++ names) (start.foldl (fun env x => Function.update env x.1 x.2) env) ∧
      ∀ v ∉ start.map (·.1), vars.get? ('$' :: v) = s.globals.get? ('$' :: v) := by
  induction start generalizing xs s names env with
  | nil =>
    cases hxs
    exact ⟨s.globals, rfl, hvars, fun _ _ => rfl⟩
  | cons d start ih =>
    obtain ⟨x, k⟩ := d
    cases hxs with | cons hx hxs =>
    obtain ⟨e, he, rfl⟩ := hx
    obtain ⟨hname, hdeclaring⟩ := hstart _ mem_cons_self
    have hfirst := line_numberDeclaration handle hname hdeclaring k hu he hi
    obtain ⟨vars, hrest, hhold, hother⟩ := ih hxs (forall_mem_cons.mp hstart).2
      (s := s.withGlobals (s.globals.set ('$' :: x) (ofInt k))) (hi.withGlobals _) (hvars.bind x k)
    refine ⟨vars, ?_, fun y hy => hhold y ?_, fun v hv => ?_⟩
    · have hline : declarationText x k ++ e = sourceLine u 0 (declarationText x k) e := rfl
      rw [hline, Action.runFrom_forM_cons_ok hfirst]
      exact hrest
    · simp only [map_cons, cons_append, mem_cons, mem_append] at hy ⊢
      tauto
    · simp only [map_cons, mem_cons, not_or] at hv
      have hne : '$' :: v ≠ '$' :: x := fun heq => hv.1 (cons.inj heq).2
      rw [hother v hv.2]
      exact Table.get?_set_ne _ hne _

theorem undeclared_body (h : p.IsSound) {w : Update} (hw : w ∈ p.body) :
    declaresVerbatim w.written = false := by
  have hover := h.body w hw
  refine Update.declaresVerbatim_written hover.toIsSound (h.undeclared _ hover.known) fun name hname => ?_
  exact h.undeclared _ (contains_iff_mem.mp (hover.operands _ hname))

end IntegerLoop

namespace Document
variable {tags : TagTable} {files : Files} {path u : Text}

def session (tags : TagTable) (files : Files) (path : Text) : Session :=
  ((Compile.compileFile (handle tags files path) path).runFrom (start tags files path)).2

/-- A loop over whole numbers computes what its updates compute on the numbers, and writes nothing. -/
theorem compile_integerLoop (tags : TagTable) (u : Text) (p : IntegerLoop) (terminated : Bool) (files : Files)
    (path : Text)
    (hread : HasFile files path (sourceText (p.lines u) terminated))
    (hu : isUnit u = true) (hp : p.IsSound)
    (hsmall : Update.areSmallIn p.iterator p.body p.items p.first = true) :
    (compile tags files path).fault = none ∧ (compile tags files path).output = [] ∧
      ∀ x ∈ p.names, (session tags files path).globals.get? ('$' :: x) = some (Text.ofInt (p.final x)) := by
  obtain ⟨n, _, hhandle⟩ := handle_eq tags hread
  obtain ⟨xs, ys, hlines, hxs, hys⟩ := forall₂_append_left (forall₂_ended (p.lines u) terminated)
  cases hys with | cons hy hzs =>
  rename_i y zs
  obtain ⟨e, he, rfl⟩ := hy
  have hidle : (start tags files path).Idle tags u := idle_start u
  have hdeclared : ∀ x ∈ p.start, x.1.isName = true ∧ isDeclaring x.1 = false := fun x hx =>
    have hmem : x.1 ∈ p.iterator :: p.names := List.mem_cons_of_mem _ (List.mem_map_of_mem (f := (·.1)) hx)
    ⟨hp.names _ hmem, hp.undeclared _ hmem⟩
  -- First the declarations, then the header and the body of the loop, then its calls.
  have hnone : (start tags files path).globals.Hold [] fun _ => 0 := fun _ hx => absurd hx List.not_mem_nil
  obtain ⟨vars, hfirst, hhold, hother⟩ := IntegerLoop.declarations_run (Compile.lineTo n) hu hxs hdeclared hidle hnone
  rw [List.append_nil] at hhold
  have hheader := isHeader_integers (hp.names _ List.mem_cons_self) (hp.undeclared _ List.mem_cons_self) hp.items
  have hvacant : ((start tags files path).withGlobals vars).Vacant u := (hidle.withGlobals vars).vacant fun _ h => nomatch h
  obtain ⟨s₁, hstart, hs₁⟩ := Records.start (Compile.lineTo n) hheader hu he hvacant rfl (Nat.le_refl 0)
    (hother _ hp.fresh)
  obtain ⟨s₂, hbody, hs₂⟩ := hs₁.adds (Compile.lineTo n) hu hzs fun w hw =>
    ⟨(hp.body w hw).toIsSound, p.undeclared_body hp hw⟩
  obtain ⟨t, hclose, hfinal, houtput⟩ := hs₂.closeAll (Compile.lineTo (n + 1))
    (P := fun vars => vars.Hold p.names p.final) fun t i m ht hloops hpage hglobals hm hparameters hown hlines =>
      Compile.loopCalls_updates hu ht hloops hpage hm hparameters hown hp.body hlines _ p.items (hglobals ▸ hhold) hsmall
  have hrun : ((ended (p.lines u) terminated).forM (Compile.lineTo (n + 1))).runFrom (start tags files path) =
      (.ok (), s₂) := by
    have hline : Compile.lineTo (n + 1) = Compile.line (Compile.lineTo n) := funext fun _ => rfl
    have hheaderline : (Compile.line (Compile.lineTo n) (loopText p.iterator (p.items.map Text.ofInt) ++ e)).runFrom
        ((start tags files path).withGlobals vars) = (.ok (), s₁) := hstart
    rw [hlines, hline, Action.runFrom_forM_append, hfirst]
    dsimp only
    rw [Action.runFrom_forM_cons_ok hheaderline, hbody]
  rw [← source_lines (p.line_signs hp hu), ← hhandle] at hrun
  rw [← hhandle] at hclose
  have hcompile := compile_of_ok hread hrun hclose
  refine ⟨hcompile.1, hcompile.2.trans houtput, fun x hx => ?_⟩
  rw [session, compileFile_of_ok hread hrun hclose]
  exact hfinal x hx

def sampleIntegerLoop : IntegerLoop where
  start := [("sum", 0), ("last", -1)]
  iterator := "v"
  items := [2, -3, 5]
  body :=
    [⟨"sum", 1, some .plus, .binary .times (.operand (.reference "v")) (.operand (.reference "v")),
        [(1, .operand (.reference "v")), (0, .operator .times), (0, .operand (.reference "v"))]⟩,
      ⟨"last", 1, none,
        .binary .minus (.operand (.reference "sum")) (.binary .times (.negative (.operand (.reference "last")))
          (.group (.binary .plus (.operand (.reference "v")) (.operand (.number 1))))),
        [(1, .operand (.reference "sum")), (0, .operator .minus), (0, .operator .minus),
          (0, .operand (.reference "last")), (1, .operator .times), (1, .opening),
          (0, .operand (.reference "v")), (1, .operator .plus), (1, .operand (.number 1)), (0, .closing)]⟩]

theorem compile_integerLoop_sample :
    sampleIntegerLoop.lines "\t" =
        ["$sum := 0".toList, "$last := -1".toList, "for $v in [2, -3, 5]:".toList, "\t$sum += $v*$v".toList,
          "\t$last := $sum--$last * ($v + 1)".toList] ∧
      (compile sampleTags [("a", sourceText (sampleIntegerLoop.lines "\t") true)] "a").output = [] ∧
      (session sampleTags [("a", sourceText (sampleIntegerLoop.lines "\t") true)] "a").globals.get?
        "$last".toList = some "104".toList := by
  have h := compile_integerLoop sampleTags "\t" sampleIntegerLoop true
    [("a", sourceText (sampleIntegerLoop.lines "\t") true)] "a" (by decide +kernel) (by decide)
    (by decide +kernel) (by decide +kernel)
  have hlast := h.2.2 "last" (by decide)
  have hvalue : sampleIntegerLoop.final "last" = 104 := by decide +kernel
  rw [hvalue] at hlast
  exact ⟨by decide +kernel, h.2.1, hlast⟩

/-- The name of the variable makes its lines declare verbatim blocks. -/
def declaringLoop : IntegerLoop where
  start := [("verbatim", 3)]
  iterator := "v"
  items := [1]
  body := [⟨"verbatim", 1, some .plus, .operand (.reference "v"), [(1, .operand (.reference "v"))]⟩]

theorem declaringLoop_fault :
    declaringLoop.lines "\t" =
        ["$verbatim := 3".toList, "for $v in [1]:".toList, "\t$verbatim += $v".toList] ∧
      (∀ x ∈ declaringLoop.iterator :: declaringLoop.names, x.isName = true) ∧
      declaringLoop.iterator ∉ declaringLoop.names ∧ declaringLoop.items ≠ [] ∧
      (∀ w ∈ declaringLoop.body, w.IsOver (declaringLoop.iterator :: declaringLoop.names)) ∧
      (compile sampleTags [("a", sourceText (declaringLoop.lines "\t") true)] "a").fault.isSome = true := by
  decide +kernel

end Document
end OutlineMarkup
