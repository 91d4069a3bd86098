import Mathlib.Logic.Relation
import OutlineMarkup.Proofs.ImportLines
import OutlineMarkup.Proofs.Routines
import OutlineMarkup.Proofs.Statements

/-!
# Shadowing

A method runs on variables of its own, so that its assignments hide global variables and never change
them. The lines that it yields are handled like any others; as long as all values are plain, none of
them assigns anything, whatever its variables stand for, and those that call further methods only set
the variables of these.
-/

namespace OutlineMarkup
open Action List Bool Text Method
variable {line : Text} {vars : Variables}

namespace Compile

/-! ## Lines that assign nothing -/

/-- A line that assigns and imports nothing, and starts neither a loop nor a method. -/
structure Modest (line : Text) : Prop where
  sign : line.trim.has Assignment.sign = false
  compound : Assignment.isCompound line = false
  imports : "import ".toList.isPrefixOf line = false
  loop : isLoopStart line.trim = false
  method : isMethodStart line = false
  point : line.trim.hasChar '.' = false
  bracket : '[' ∉ line

theorem Modest.of_steady {w tag e : Text} (h : Steady tag) (hw : ∀ c ∈ w, isBlank c)
    (he : LineEnd e) : Modest (w ++ (tag ++ e)) := by
  have htrim : (w ++ (tag ++ e)).trim = tag := trim_append_solid hw he.isBlank h.solid
  have hfree : ∀ {c : Char}, isBlank c = false → c ∉ tag → c ∉ w ++ (tag ++ e) := by
    intro c hc htag hm
    rcases mem_append.mp hm with hm | hm
    · rw [hw c hm] at hc
      exact Bool.noConfusion hc
    · rcases mem_append.mp hm with hm | hm
      · exact htag hm
      · rw [he.isBlank c hm] at hc
        exact Bool.noConfusion hc
  have hequals : EqualsAfterWord (w ++ (tag ++ e)) := by
    have hline := h.equals_sourceLine (u := " ") (k := 0) rfl he
    have hblank : '=' ∉ w := fun hm => absurd (hw _ hm) (by decide)
    refine (equalsAfterWord_of_not_mem hblank).append hline ?_
    rw [head?_append_of_ne_nil _ h.solid.ne_nil]
    exact h.head?_ne (by decide) (by decide)
  -- Behind blanks no word starts the line, and without them the first word is followed by no blank.
  have hword : ∀ word : Text, word ≠ [] → (∀ c ∈ word, c.isAlphanum) →
      (word ++ [' ']).isPrefixOf (w ++ (tag ++ e)) = false := by
    intro word hne hletters
    cases w with
    | nil => exact h.word_sourceLine (u := " ") (k := 0) rfl he hne hletters
    | cons d w =>
      obtain ⟨c, r, rfl⟩ := exists_cons_of_ne_nil hne
      have hcd : (c == d) = false := by
        refine beq_eq_false_iff_ne.mpr fun hcd => ?_
        have hblank := hw d mem_cons_self
        rw [← hcd, isBlank_eq_false_of_isAlphanum (hletters c mem_cons_self)] at hblank
        exact Bool.noConfusion hblank
      change (c == d && _) = false
      rw [hcd, Bool.false_and]
  refine ⟨by rw [htrim]; exact h.hasSign, ?_, hword "import" (by decide) (by decide),
    by rw [htrim]; exact h.isLoopStart, hword "def" (by decide) (by decide), ?_, ?_⟩
  · have hop : ∀ c : Char, c.isAlphanum = false → (w ++ (tag ++ e)).has [c, '='] = false :=
      fun c hc => hequals.has_eq_false hc
    simp [Assignment.isCompound, Assignment.operators, hop]
  · rw [htrim, hasChar_eq_false_iff]
    exact h.not_mem (by simp)
  · exact hfree (by decide) (h.not_mem (by simp))

end Compile

/-! ## Calls -/

abbrev Invocation := Method × List Text

/-- The call that a line is, once its variables are replaced. -/
def Background.called? (b : Background) (line : Text) : Option Invocation :=
  match Reference.resolve b.globals line.trim [] >>= ArrayIndex.resolve with
  | .error _ => none
  | .ok tag =>
    match Definition.read tag with
    | .error _ => none
    | .ok d => (b.methods.get? d.name).map (·, d.attributes)

namespace Compile
variable {handle : Handler} {s : Session} {line : Text}

theorem resolve_runFrom (text : Text) :
    (resolve text []).runFrom s = (Reference.resolve s.globals text [] >>= ArrayIndex.resolve, s) := by
  rw [resolve, runFrom_bind_ok (runFrom_get s), runFrom_bind, runFrom_liftM]
  cases Reference.resolve s.globals text [] with
  | error f => rfl
  | ok r => exact runFrom_liftM _ _

/-- Markup is written and leaves everything else alone, unless it calls a method. -/
theorem markupLine_cases (handle : Handler) (s : Session) (depth : Nat) (space line : Text) :
    (∃ r t, t.background = s.background ∧ (markupLine handle depth space line.trim).runFrom s = (r, t)) ∨
      ∃ x t, s.background.called? line = some x ∧ t.background = s.background ∧
        (markupLine handle depth space line.trim).runFrom s = (runMethod handle x.1 x.2 space).runFrom t := by
  have settled : ∀ {z : Compile Unit}, Quiet s.background z →
      (markupLine handle depth space line.trim).runFrom s = z.runFrom s →
      ∃ r t, t.background = s.background ∧ (markupLine handle depth space line.trim).runFrom s = (r, t) :=
    fun hz h => ⟨_, _, (hz s rfl).1, h⟩
  have hresolve := resolve_runFrom (s := s) line.trim
  cases htag : Reference.resolve s.globals line.trim [] >>= ArrayIndex.resolve with
  | error f =>
    rw [htag] at hresolve
    refine .inl ⟨.error f, s, rfl, ?_⟩
    rw [markupLine, runFrom_bind_error hresolve]
  | ok tag =>
    rw [htag] at hresolve
    cases hhead : tag.head? with
    | none =>
      refine .inl (settled (z := throw .outOfRange) (.throw trivial) ?_)
      rw [markupLine, runFrom_bind_ok hresolve, hhead]
    | some c =>
      cases hquote : Text.isQuote c with
      | true =>
        refine .inl (settled ((writeLine_tame depth space (tag.inner ++ ['\n']) none none).mono
          fun _ _ => trivial) ?_)
        rw [markupLine, runFrom_bind_ok hresolve, hhead]
        simp [hquote]
      | false =>
        have hread : (markupLine handle depth space line.trim).runFrom s =
            (do definitionLine handle depth space (← Definition.read tag) : Compile Unit).runFrom s := by
          rw [markupLine, runFrom_bind_ok hresolve, hhead]
          simp [hquote]
        cases hd : Definition.read tag with
        | error f =>
          refine .inl ⟨.error f, s, rfl, ?_⟩
          rw [hread, hd]
          rfl
        | ok d =>
          have hdefinition : (markupLine handle depth space line.trim).runFrom s =
              (definitionLine handle depth space d).runFrom s := by
            rw [hread, hd]
            rfl
          cases hm : s.methods.get? d.name with
          | none =>
            exact .inl (settled ((definitionLine_tame handle depth space hm).mono fun _ _ => trivial)
              hdefinition)
          | some m =>
            have hcall : (definitionLine handle depth space d).runFrom s = (do
                enter depth (some none)
                runMethod handle m d.attributes space : Compile Unit).runFrom s := by
              rw [definitionLine, runFrom_bind_ok (runFrom_get s), hm]
            have hcalled : s.background.called? line = some (m, d.attributes) := by
              have hmethods : s.background.methods.get? d.name = some m := hm
              have hglobals : Reference.resolve s.background.globals line.trim [] >>= ArrayIndex.resolve =
                  .ok tag := htag
              simp [Background.called?, hglobals, hd, hmethods]
            rcases Retains.cases (enter_tame (b := s.background) depth (some none)) with
              ⟨f, t, hrun, -, ht⟩ | ⟨_, t, hrun, ht⟩
            · refine .inl ⟨.error f, t, ht, ?_⟩
              rw [hdefinition, hcall, runFrom_bind_error hrun]
            · refine .inr ⟨_, t, hcalled, ht, ?_⟩
              rw [hdefinition, hcall, runFrom_bind_ok hrun]

theorem plainLine_cases (hloops : s.loops = []) (hd : s.defining = none) (hline : Modest line)
    (handle compile : Handler) (depth : Nat) (space : Text) :
    (∃ r t, t.background = s.background ∧ (plainLineBy handle compile depth space line).runFrom s = (r, t)) ∨
      ∃ x t, s.background.called? line = some x ∧ t.background = s.background ∧
        (plainLineBy handle compile depth space line).runFrom s =
          (runMethod handle x.1 x.2 space).runFrom t := by
  cases hverbatim : declaresVerbatim line.trim with
  | true =>
    have hquiet := declareVerbatim_tame (b := s.background) line.trim s rfl
    exact .inl ⟨_, _, hquiet.1, plainLineBy_verbatim hverbatim handle compile depth space⟩
  | false =>
    have hrun := plainLineBy_run hloops hd hverbatim hline.loop hline.method handle compile depth space
    cases hengine : line.has "TemplateEngine" with
    | true =>
      have hx : declarationLineBy compile depth line = (do declareEngine line.trim; return none) := by
        simp only [declarationLineBy, hline.sign, hline.compound, hline.imports, hengine, if_true,
          false_eq_true, if_false]
      refine .inl ⟨((declareEngine line.trim).runFrom s).1, ((declareEngine line.trim).runFrom s).2,
        (declareEngine_tame line.trim s rfl).1, ?_⟩
      rw [hrun, hx]
      simp only [runFrom_bind]
      rcases (declareEngine line.trim).runFrom s with ⟨_ | _, t⟩ <;> rfl
    | false =>
      cases hend : line == endMark with
      | true =>
        have hx : declarationLineBy compile depth line = return none := by
          simp only [declarationLineBy, hline.sign, hline.compound, hline.imports, hengine, hline.point,
            hend, if_true, false_eq_true, if_false]
        exact .inl ⟨.ok (), s, rfl, by rw [hrun, hx]; rfl⟩
      | false =>
        have hx : declarationLineBy compile depth line = return (some line.trim) := by
          simp only [declarationLineBy, hline.sign, hline.compound, hline.imports, hengine, hline.point,
            hend, false_eq_true, if_false]
        rw [hrun, hx]
        exact markupLine_cases handle s depth space line

end Compile

/-! ## Runs of methods -/

/-- The lines of a body with the variables on which they run, up to the first that fails. -/
def Method.stages : Variables → List BodyLine → List (Variables × BodyLine)
  | _, [] => []
  | vars, l :: ls =>
    (vars, l) :: match runLine vars l with
      | .error _ => []
      | .ok (_, vars) => stages vars ls

/-- All variables have plain values when the line runs, and so have its arguments if it is a call. -/
def isPlainStage (p : Variables × BodyLine) : Bool :=
  p.1.all (·.2.all isPlainChar) &&
    match Method.runLine p.1 p.2 with
    | .ok (some line, _) => !isListCall p.2.text || line.all isCallChar
    | _ => true

/-- A method with variables of its own, made of statements that apply no function. -/
structure Method.IsRoutine (m : Method) : Prop where
  own : m.ownVariables = true
  lines : ∀ l ∈ m.lines, ∃ st : Statement, (st.isSound = true ∧ st.appliesNothing = true) ∧ st.KeptAs l

def Method.ofStatements (name : Text) (parameters : List Text) (serial : Nat) (body : List Statement) : Method :=
  body.foldl (fun m st => m.addLine (st.written ++ ['\n']) [])
    { name, parameters, ownVariables := true, serial }

theorem Method.isRoutine_ofStatements (name : Text) (parameters : List Text) (serial : Nat)
    {body : List Statement} (h : ∀ st ∈ body, st.isSound ∧ st.appliesNothing) :
    (ofStatements name parameters serial body).IsRoutine := by
  have go : ∀ (body : List Statement) (m : Method), (∀ st ∈ body, st.isSound ∧ st.appliesNothing) → m.IsRoutine →
      (body.foldl (fun m st => m.addLine (st.written ++ ['\n']) []) m).IsRoutine := by
    intro body
    induction body with
    | nil => exact fun m _ hm => hm
    | cons st body ih =>
      intro m h hm
      refine ih _ (forall_mem_cons.mp h).2 ⟨hm.own, fun l hl => ?_⟩
      rcases mem_append.mp hl with hl | hl
      · exact hm.lines l hl
      · obtain rfl := mem_singleton.mp hl
        refine ⟨st, h st mem_cons_self, rfl, " ", 0, ['\n'], rfl, .inr rfl, ?_⟩
        rw [sourceLine, times_zero, nil_append]
  exact go body _ h ⟨rfl, fun l hl => by cases hl⟩

namespace Background

/-- The lines that a call runs, with the variables on which they run. -/
def stages (b : Background) (x : Invocation) : List (Variables × BodyLine) :=
  match x.1.bindArguments x.2 b.globals with
  | (.error _, _) => []
  | (.ok (), vars) => Method.stages vars x.1.lines

def callees (b : Background) (x : Invocation) : List Invocation :=
  (b.stages x).filterMap fun p =>
    match Method.runLine p.1 p.2 with
    | .ok (some line, _) => b.called? line
    | _ => none

/-- One call leads to another, directly or through others, or is the same. -/
def Reaches (b : Background) : Invocation → Invocation → Prop :=
  Relation.ReflTransGen fun x y => y ∈ b.callees x

theorem mem_callees {b : Background} {x y : Invocation} {p : Variables × BodyLine}
    (hp : p ∈ b.stages x) (hrun : runLine p.1 p.2 = .ok (some line, vars))
    (hy : y ∈ b.called? line) : y ∈ b.callees x := by
  refine mem_filterMap.mpr ⟨p, hp, ?_⟩
  simp only [hrun]
  exact hy

theorem mem_of_reaches {b : Background} {calls : List Invocation}
    (h : ∀ x ∈ calls, ∀ y ∈ b.callees x, y ∈ calls) {x y : Invocation} (hx : x ∈ calls) (hxy : b.Reaches x y) :
    y ∈ calls := by
  induction hxy with
  | refl => exact hx
  | tail _ hyz ih => exact h _ ih _ hyz

/-- A call of a routine that meets plain values only and is not called again while it runs. -/
structure Sound (b : Background) (x : Invocation) : Prop where
  routine : x.1.IsRoutine
  plain : ∀ p ∈ b.stages x, isPlainStage p = true
  once : ∀ y ∈ b.callees x, ∀ z, b.Reaches y z → z.1.serial ≠ x.1.serial

end Background

/-- From one session to another nothing changes but the page and the variables of some methods. -/
structure Spared (b : Background) (touched : Nat → Prop) (s t : Session) : Prop where
  background : t.background = { b with frames := t.frames }
  frames : ∀ i, ¬ touched i → t.frames.lookup i = s.frames.lookup i

namespace Spared
variable {b : Background} {touched touched' : Nat → Prop} {s t v : Session}

theorem mono (h : Spared b touched s t) (hsub : ∀ i, touched i → touched' i) : Spared b touched' s t :=
  ⟨h.background, fun i hi => h.frames i fun ht => hi (hsub i ht)⟩

theorem trans (h : Spared b touched s t) (h' : Spared b touched t v) : Spared b touched s v :=
  ⟨h'.background, fun i hi => (h'.frames i hi).trans (h.frames i hi)⟩

theorem of_background (touched : Nat → Prop) (hs : s.background = { b with frames := s.frames })
    (ht : t.background = s.background) : Spared b touched s t := by
  have hframes : t.frames = s.frames := congrArg Background.frames ht
  exact ⟨by rw [ht, hs, hframes], fun i _ => by rw [hframes]⟩

end Spared

namespace Compile
variable {b : Background} {handle : Handler} {s : Session} {space : Text} {x : Invocation}

theorem setFrame_spared {m : Method} (hm : m.ownVariables) (vars : Variables)
    (hs : s.background = { b with frames := s.frames }) :
    ∃ t, (setFrame m vars).runFrom s = (.ok (), t) ∧ Spared b (· = m.serial) s t ∧
      t.frames.lookup m.serial = some vars := by
  have hlookup : ∀ i, ((m.serial, vars) :: s.frames.filter (·.1 != m.serial)).lookup i =
      if i = m.serial then some vars else s.frames.lookup i := by
    have h := @Store.lookup_setFrame s.store m vars hm
    rwa [Store.setFrame, if_pos hm] at h
  refine ⟨{ s with frames := (m.serial, vars) :: s.frames.filter (·.1 != m.serial) }, ?_, ⟨?_, ?_⟩, ?_⟩
  · simp [setFrame, hm]
  · simp only [Session.background, Background.mk.injEq] at hs ⊢
    exact hs
  · intro i hi
    rw [hlookup, if_neg hi]
  · rw [hlookup, if_pos rfl]

def touches (b : Background) (x : Invocation) (i : Nat) : Prop := ∃ y, b.Reaches x y ∧ y.1.serial = i

section Handled
variable (hx : b.Sound x)
  (hhandle : ∀ p ∈ b.stages x, ∀ line vars, Method.runLine p.1 p.2 = .ok (some line, vars) → ∀ t : Session, t.background = { b with frames := t.frames } → Spared b (fun i => ∃ y ∈ b.called? line, touches b y i) t ((handle (space ++ line)).runFrom t).2)
include hx hhandle

theorem runLines_spared {ls : List BodyLine} (hls : ∀ p ∈ Method.stages vars ls, p ∈ b.stages x)
    (hs : s.background = { b with frames := s.frames }) (hvars : s.frames.lookup x.1.serial = some vars) :
    Spared b (touches b x) s ((ls.forM (runLine handle x.1 space)).runFrom s).2 := by
  have hself : touches b x x.1.serial := ⟨x, .refl, rfl⟩
  induction ls generalizing s vars with
  | nil => exact .of_background _ hs rfl
  | cons l ls ih =>
    have hstage : (vars, l) ∈ b.stages x := hls _ mem_cons_self
    have hframe : (frame x.1).runFrom s = (.ok vars, s) := by
      rw [frame, runFrom_bind_ok (runFrom_get s), hx.routine.own, if_pos rfl, hvars]
      rfl
    rw [runFrom_forM_cons]
    cases hrun : Method.runLine vars l with
    | error f =>
      have hline : (runLine handle x.1 space l).runFrom s = (.error f, s) := by
        rw [runLine, runFrom_bind_ok hframe, hrun]
        rfl
      rw [hline]
      exact .of_background _ hs rfl
    | ok r =>
      obtain ⟨out, vars'⟩ := r
      obtain ⟨t, ht, hspared, hlookup⟩ := setFrame_spared hx.routine.own vars' hs
      have hspared' : Spared b (touches b x) s t := hspared.mono fun i hi => hi ▸ hself
      have hrest : ∀ p ∈ Method.stages vars' ls, p ∈ b.stages x := by
        intro p hp
        refine hls p (.tail _ ?_)
        rw [hrun]
        exact hp
      cases out with
      | none =>
        have hline : (runLine handle x.1 space l).runFrom s = (.ok (), t) := by
          rw [runLine, runFrom_bind_ok hframe, hrun]
          change (do setFrame x.1 vars'; pure () : Compile Unit).runFrom s = _
          rw [runFrom_bind_ok ht]
          rfl
        rw [hline]
        exact hspared'.trans (ih hrest hspared'.background hlookup)
      | some line =>
        have hline : (runLine handle x.1 space l).runFrom s = (handle (space ++ line)).runFrom t := by
          rw [runLine, runFrom_bind_ok hframe, hrun]
          change (do setFrame x.1 vars'; handle (space ++ line) : Compile Unit).runFrom s = _
          rw [runFrom_bind_ok ht]
        have hhandled := hhandle (vars, l) hstage line vars' hrun t hspared'.background
        have hcallee : ∀ y ∈ b.called? line, y ∈ b.callees x := fun y hy =>
          Background.mem_callees hstage hrun hy
        have hother : ¬ ∃ y ∈ b.called? line, touches b y x.1.serial := by
          rintro ⟨y, hy, z, hz, hserial⟩
          exact hx.once y (hcallee y hy) z hz hserial
        have hmore : Spared b (touches b x) t ((handle (space ++ line)).runFrom t).2 := by
          refine hhandled.mono ?_
          rintro i ⟨y, hy, z, hz, rfl⟩
          exact ⟨z, Relation.ReflTransGen.head (hcallee y hy) hz, rfl⟩
        have hkept := (hhandled.frames _ hother).trans hlookup
        rw [hline]
        rcases hout : (handle (space ++ line)).runFrom t with ⟨f | _, v⟩
        · rw [hout] at hmore
          exact hspared'.trans hmore
        · rw [hout] at hmore hkept
          exact hspared'.trans (hmore.trans (ih hrest hmore.background hkept))

theorem runMethod_spared (hs : s.background = { b with frames := s.frames }) :
    Spared b (touches b x) s ((runMethod handle x.1 x.2 space).runFrom s).2 := by
  have hglobals : s.globals = b.globals := congrArg Background.globals hs
  have hself : touches b x x.1.serial := ⟨x, .refl, rfl⟩
  rcases hbind : x.1.bindArguments x.2 b.globals with ⟨bound, vars⟩
  obtain ⟨t, ht, hspared, hlookup⟩ := setFrame_spared hx.routine.own vars hs
  have hspared' : Spared b (touches b x) s t := hspared.mono fun i hi => hi ▸ hself
  have hrun : (runMethod handle x.1 x.2 space).runFrom s = (do
      liftM bound
      x.1.lines.forM (runLine handle x.1 space) : Compile Unit).runFrom t := by
    rw [runMethod, runFrom_bind_ok (runFrom_get s), hglobals, hbind]
    exact runFrom_bind_ok ht
  rw [hrun]
  cases bound with
  | error f => exact hspared'
  | ok _ =>
    have hstages : ∀ p ∈ stages vars x.1.lines, p ∈ b.stages x := by
      intro p hp
      rw [Background.stages, hbind]
      exact hp
    exact hspared'.trans (runLines_spared hx hhandle hstages hspared'.background hlookup)

end Handled

end Compile

/-! ## Lines that call methods -/

theorem Background.called?_congr (b : Background) {line' : Text} (h : line.trim = line'.trim) :
    b.called? line = b.called? line' := by
  rw [called?, called?, h]

theorem Method.mem_lines_of_mem_stages {ls : List BodyLine} {p : Variables × BodyLine}
    (h : p ∈ stages vars ls) : p.2 ∈ ls := by
  induction ls generalizing vars with
  | nil => cases h
  | cons l ls ih =>
    rcases mem_cons.mp h with rfl | h
    · exact mem_cons_self
    · split at h
      · cases h
      · exact .tail _ (ih h)

namespace Background
variable {b : Background} {x : Invocation} {p : Variables × BodyLine}

theorem mem_lines_of_mem_stages (h : p ∈ b.stages x) : p.2 ∈ x.1.lines := by
  unfold stages at h
  split at h
  · cases h
  · exact Method.mem_lines_of_mem_stages h

theorem Sound.yields (hx : b.Sound x) (hp : p ∈ b.stages x)
    (hrun : runLine p.1 p.2 = .ok (some line, vars)) :
    ∃ u k tag e, isUnit u ∧ Steady tag ∧ LineEnd e ∧ line = sourceLine u k tag e := by
  have hplain := hx.plain p hp
  rw [isPlainStage, hrun, Bool.and_eq_true, all_eq_true] at hplain
  obtain ⟨st, hst, hkept⟩ := hx.routine.lines p.2 (mem_lines_of_mem_stages hp)
  refine Statement.runLine_steady hst.1 hkept hplain.1 hrun fun hlist => ?_
  have hcall : (!isListCall p.2.text || line.all isCallChar) := hplain.2
  rwa [hlist, Bool.not_true, Bool.false_or] at hcall

end Background

namespace Compile
variable {b : Background}

/-- Handling a line that assigns nothing touches the variables of the methods that it leads to, and
nothing else of the background. -/
theorem lineTo_spared (hloops : b.loops = []) (hd : b.defining = none) (hunit : b.blankUnit) (n : Nat)
    {w tag e : Text} (hw : ∀ c ∈ w, isBlank c) (htag : Steady tag) (he : LineEnd e)
    (hsound : ∀ x ∈ b.called? (w ++ (tag ++ e)), ∀ y, b.Reaches x y → b.Sound y)
    {s : Session} (hs : s.background = { b with frames := s.frames }) :
    Spared b (fun i => ∃ x ∈ b.called? (w ++ (tag ++ e)), touches b x i) s
      ((lineTo n (w ++ (tag ++ e))).runFrom s).2 := by
  induction n generalizing w tag e s with
  | zero => exact .of_background _ hs rfl
  | succ n ih =>
    have hmodest := Modest.of_steady htag hw he
    have hline : lineTo (n + 1) (w ++ (tag ++ e)) =
        lineBy (lineTo n) (compileModule (lineTo n)) (w ++ (tag ++ e)) :=
      congrFun (line_eq_lineBy (lineTo n)) _
    have hadd : ∀ line, Quiet s.background (addToBlock line) := addToBlock_quiet
    have hloops' : s.loops = [] := (congrArg Background.loops hs).trans hloops
    have hd' : s.defining = none := (congrArg Background.defining hs).trans hd
    rw [hline]
    cases lineBy_cases (fun _ _ => trivial) hloops' hd' hadd (w ++ (tag ++ e)) with
    | settled _ ht hrun =>
      rw [hrun]
      exact .of_background _ hs ht
    | again _ _ ht hrun =>
      rw [hrun]
      have hback := Spared.of_background (fun _ => False) hs ht
      exact (hback.mono fun _ h => h.elim).trans (ih hw htag he hsound hback.background)
    | @plain depth space t _ _ ht hspace hrun =>
      have hback := Spared.of_background (fun _ => False) hs ht
      have hblank : ∀ c ∈ space, isBlank c := by
        refine hspace ?_
        rw [hs]
        exact hunit
      have hexpand : Shorthand.expand (w ++ (tag ++ e)) = .ok (w ++ (tag ++ e)) :=
        shorthand_eq_self hmodest.bracket
      rw [hrun, hexpand]
      change Spared b _ s ((plainLineBy _ _ depth space (w ++ (tag ++ e))).runFrom t).2
      rcases plainLine_cases ((congrArg Background.loops ht).trans hloops')
        ((congrArg Background.defining ht).trans hd') hmodest (lineTo n) (compileModule (lineTo n)) depth space
        with ⟨r, v, hv, hsettled⟩ | ⟨x, v, hcalled, hv, hcall⟩
      · rw [hsettled]
        exact .of_background _ hs (hv.trans ht)
      · have hcalled' : b.called? (w ++ (tag ++ e)) = some x := by
          rw [← hcalled, ht, hs]
          rfl
        have hreach := hsound x hcalled'
        have hback' := Spared.of_background (fun _ => False) hs (hv.trans ht)
        have hmethod : Spared b (touches b x) v ((runMethod (lineTo n) x.1 x.2 space).runFrom v).2 := by
          refine runMethod_spared (hreach x .refl) (fun p hp line vars hyield t ht => ?_) hback'.background
          obtain ⟨u, k, tag', e', hu, htag', he', rfl⟩ := (hreach x .refl).yields hp hyield
          have hw' : ∀ c ∈ space ++ u.times k, isBlank c := by
            intro c hc
            rcases mem_append.mp hc with hc | hc
            · exact hblank c hc
            · exact isBlank_of_mem_times hu c hc
          have hsame : b.called? ((space ++ u.times k) ++ (tag' ++ e')) =
              b.called? (sourceLine u k tag' e') := by
            refine b.called?_congr ?_
            rw [trim_append_solid hw' he'.isBlank htag'.solid, htag'.trim_sourceLine hu he']
          have hnext := ih hw' htag' he' (fun y hy z hz => hreach z (Relation.ReflTransGen.head
            (Background.mem_callees hp hyield (hsame ▸ hy)) hz)) ht
          rwa [hsame, append_assoc] at hnext
        rw [hcall]
        refine (hback'.mono fun _ h => h.elim).trans (hmethod.mono fun i hi => ⟨x, hcalled', hi⟩)

/-- Calling a method leaves the global variables as they are, whether the call succeeds or fails, if all
methods that come to be called are routines, none is called while it runs, and the values that their
variables take are plain. -/
theorem handleLine_call_globals {s : Session} (hloops : s.loops = []) (hd : s.defining = none)
    (hunit : s.background.blankUnit = true) {u e name : Text} {arguments : Option (List Text)} {colon : Bool}
    (k : Nat) (hu : isUnit u = true) (he : LineEnd e)
    (hcall : (Statement.item (.call name arguments colon)).isSound = true)
    (hsound : ∀ x ∈ s.background.called? (sourceLine u k (Item.call name arguments colon).written e),
      ∀ y, s.background.Reaches x y → s.background.Sound y) :
    ((handleLine (sourceLine u k (Item.call name arguments colon).written e)).runFrom s).2.globals =
      s.globals := by
  have hsteady := (Statement.steady_item hcall).1
  have hspared := lineTo_spared (b := s.background) hloops hd hunit s.depthBound (isBlank_of_mem_times hu)
    hsteady he hsound rfl
  rw [handleLine, Action.runFrom_bind_ok (Action.runFrom_get s)]
  exact congrArg Background.globals hspared.background

/-- `f($q)` and `m($p)`, which calls it, assign to their parameters, to a global variable, and to
names of their own. -/
def shadowingBodies : List Statement × List Statement :=
  ([.assign "$x" none "$q*2",
    .item (.markup (.element "b" (some [("t", "$q $x")]) false))],
   [.assign "$x" none "(1 + 2)",
    .assign "$p" (some '-') "$x",
    .item (.markup (.text "$x$p $y")),
    .item (.call "f" (some ["$p"]) false)])

def shadowingMethods : Method × Method :=
  (.ofStatements "f" ["$q"] 0 shadowingBodies.1,
   .ofStatements "m" ["$p"] 1 shadowingBodies.2)

def shadowingSession : Session :=
  { tags := [("*", ⟨.normal, none⟩)]
    globals := [("$x", "a b"), ("$y", "c-d")]
    methods := [("f", shadowingMethods.1), ("m", shadowingMethods.2)]
    serials := 2 }

def shadowingCalls : List Invocation :=
  [(shadowingMethods.2, ["9"]), (shadowingMethods.1, ["6"])]

def shadowingLine : Text :=
  sourceLine " " 0 (.call "m" (some ["9"]) false : Item Text).written ['\n']

theorem handleLine_call_globals_shadowing :
    shadowingLine = "m(9)\n".toList ∧
      shadowingSession.background.called? shadowingLine = some (shadowingMethods.2, ["9".toList]) ∧
      shadowingSession.background.callees (shadowingMethods.2, ["9".toList]) =
        [(shadowingMethods.1, ["6".toList])] ∧
      ((handleLine shadowingLine).runFrom shadowingSession).2.output =
        "36 c-d\n<b t=\"6 12\">\n".toList ∧
      ((handleLine shadowingLine).runFrom shadowingSession).2.globals = shadowingSession.globals := by
  have hcalled : shadowingSession.background.called? shadowingLine =
      some (shadowingMethods.2, ["9".toList]) := by decide +kernel
  have hclosed : ∀ x ∈ shadowingCalls, ∀ y ∈ shadowingSession.background.callees x, y ∈ shadowingCalls := by
    decide +kernel
  have honce : ∀ x ∈ shadowingCalls, ∀ y ∈ shadowingSession.background.callees x,
      y = (shadowingMethods.1, ["6".toList]) ∧ x.1.serial = 1 := by
    decide +kernel
  have hlast : ∀ x ∈ [(shadowingMethods.1, ["6".toList])],
      ∀ y ∈ shadowingSession.background.callees x, y ∈ [(shadowingMethods.1, ["6".toList])] := by
    decide +kernel
  have hplain : ∀ x ∈ shadowingCalls, ∀ p ∈ shadowingSession.background.stages x, isPlainStage p = true := by
    decide +kernel
  have hroutine : ∀ x ∈ shadowingCalls, x.1.IsRoutine := by
    intro x hx
    rcases List.mem_cons.mp hx with rfl | hx
    · exact Method.isRoutine_ofStatements _ _ _ (by decide +kernel)
    · obtain rfl := List.mem_singleton.mp hx
      exact Method.isRoutine_ofStatements _ _ _ (by decide +kernel)
  refine ⟨by decide +kernel, hcalled, by decide +kernel, by decide +kernel, ?_⟩
  have hcall : (Statement.item (.call "m".toList (some ["9".toList]) false)).isSound = true := by
    decide +kernel
  have hunit : isUnit " ".toList = true := rfl
  have hblank : shadowingSession.background.blankUnit = true := rfl
  have hfree : shadowingSession.loops = [] ∧ shadowingSession.defining = none := ⟨rfl, rfl⟩
  have hend : LineEnd ['\n'] := Or.inr rfl
  unfold shadowingLine at hcalled ⊢
  apply handleLine_call_globals hfree.1 hfree.2 hblank 0 hunit hend hcall
  intro x hx y hxy
  have hy : y ∈ shadowingCalls := by
    refine Background.mem_of_reaches hclosed ?_ hxy
    have hx' : (shadowingMethods.2, ["9".toList]) = x := Option.some.inj (hcalled.symm.trans hx)
    rw [← hx']
    exact List.mem_cons_self
  refine ⟨hroutine y hy, hplain y hy, fun v hv z hz => ?_⟩
  obtain ⟨rfl, hserial⟩ := honce y hy v hv
  have hz' := List.mem_singleton.mp (Background.mem_of_reaches hlast List.mem_cons_self hz)
  have hzero : shadowingMethods.1.serial = 0 := by decide +kernel
  rw [hz', hserial, hzero]
  decide

/-- `m()` applies the function whose name `$f` holds, and so comes by the characters of an assignment. -/
def leakyBody : List Statement :=
  [.assign "$z" none "1*$f(43)+$f(61)",
   .assign "$c" none "1*$f(41)",
   .item (.markup (.text "$z$c"))]

def leakySession : Session :=
  { tags := [("*", ⟨.normal, none⟩)]
    globals := [("$f", "chr")]
    methods := [("m", .ofStatements "m" [] 0 leakyBody)]
    serials := 1 }

/-- Plain global variables are not enough if a function is applied: the call defines another variable. -/
theorem leakySession_globals :
    leakySession.globals.ArePlain ∧ (∀ l ∈ leakyBody, l.isSound = true) ∧
      leakySession.background.callees (.ofStatements "m" [] 0 leakyBody, []) = [] ∧
      leakySession.loops = [] ∧ leakySession.defining = none ∧ leakySession.block = none ∧
      ((handleLine "m()\n").runFrom leakySession).2.globals =
        leakySession.globals ++ [("\"'".toList, "\"' + ('')'\"".toList)] := by
  have hplain : ∀ p ∈ leakySession.globals, p.2.all isPlainChar = true := by decide +kernel
  refine ⟨hplain, by decide +kernel, by decide +kernel, rfl, rfl, rfl, by decide +kernel⟩

end Compile
end OutlineMarkup
