import OutlineMarkup.Proofs.Actions
import OutlineMarkup.Proofs.MildFaults
import OutlineMarkup.Session.Line

/-!
# The background of a session

What a session knows apart from its page, its template engines and its verbatim blocks: the grammar,
files, variables, methods, loops and imports, and that indentation is made of blanks. Most steps of a
compilation leave the background alone, whether they succeed or fail, and the faults of most steps are
mild.
-/

namespace OutlineMarkup
open Action

structure Background where
  tags : TagTable
  files : Files
  place : Place
  globals : Variables
  defining : Option Text
  methods : Table Method
  loops : List Loop
  imported : List Text
  frames : List (Nat × Variables)
  /-- Whether the unit of indentation, once known, is made of blanks. -/
  blankUnit : Bool

def Session.background (s : Session) : Background :=
  ⟨s.tags, s.files, s.place, s.globals, s.defining, s.methods, s.loops, s.imported, s.frames,
    s.indentation.unit.all (·.all Text.isBlank)⟩

/-- With the given background an action ends with the same one, and if it fails, then by a fault of
the given kind. -/
def Retains {α : Type} (E : Fault → Prop) (b : Background) (x : Compile α) : Prop :=
  ∀ s : Session, s.background = b →
    (x.runFrom s).2.background = b ∧ ∀ f, (x.runFrom s).1 = .error f → E f

abbrev Quiet {α : Type} (b : Background) (x : Compile α) : Prop := Retains (fun _ => True) b x

abbrev Tame {α : Type} (b : Background) (x : Compile α) : Prop := Retains (·.isMild = true) b x

namespace Retains
variable {α β : Type} {E F : Fault → Prop} {b : Background}

theorem mono {x : Compile α} (h : Retains E b x) (hEF : ∀ f, E f → F f) : Retains F b x :=
  fun s hs => ⟨(h s hs).1, fun f hf => hEF f ((h s hs).2 f hf)⟩

theorem pure (a : α) : Retains E b (pure a : Compile α) := fun _ hs => ⟨hs, nofun⟩

theorem throw {f : Fault} (h : E f) : Retains E b (throw f : Compile α) := by
  intro s hs
  refine ⟨hs, fun g hg => ?_⟩
  cases hg
  exact h

theorem lift {e : Except Fault α} (h : ∀ f, e = .error f → E f) : Retains E b (liftM e : Compile α) := by
  intro s hs
  rw [runFrom_liftM]
  exact ⟨hs, h⟩

theorem lift_bind {e : Except Fault α} {k : α → Compile β} (he : ∀ f, e = .error f → E f)
    (hk : ∀ a, e = .ok a → Retains E b (k a)) : Retains E b (liftM e >>= k) := by
  intro s hs
  rw [runFrom_bind, runFrom_liftM]
  cases h : e with
  | error f =>
    refine ⟨hs, fun g hg => ?_⟩
    cases hg
    exact he f h
  | ok a => exact hk a h s hs

theorem set {t : Session} (h : t.background = b) : Retains E b (set t : Compile PUnit) :=
  fun _ _ => ⟨h, nofun⟩

theorem modify {g : Session → Session} (h : ∀ s, (g s).background = s.background) :
    Retains E b (modify g : Compile PUnit) := fun s hs => ⟨(h s).trans hs, nofun⟩

theorem bind {x : Compile α} {k : α → Compile β} (hx : Retains E b x) (hk : ∀ a, Retains E b (k a)) :
    Retains E b (x >>= k) := by
  intro s hs
  obtain ⟨hb, he⟩ := hx s hs
  rcases hr : x.runFrom s with ⟨f | a, t⟩
  · rw [runFrom_bind_error hr]
    rw [hr] at hb he
    refine ⟨hb, fun g hg => ?_⟩
    cases hg
    exact he f rfl
  · rw [runFrom_bind_ok hr]
    rw [hr] at hb
    exact hk a t hb

theorem get_bind {k : Session → Compile β} (hk : ∀ s, s.background = b → Retains E b (k s)) :
    Retains E b (get >>= k) := by
  intro s hs
  rw [runFrom_bind_ok (runFrom_get s)]
  exact hk s hs s hs

theorem times {x : Compile Unit} (hx : Retains E b x) (n : Nat) : Retains E b (times x n) := by
  induction n with
  | zero => exact pure ()
  | succ n ih => exact hx.bind fun _ => ih

theorem cases {s : Session} {x : Compile α} (h : Retains E s.background x) :
    (∃ f t, x.runFrom s = (.error f, t) ∧ E f ∧ t.background = s.background) ∨
      ∃ a t, x.runFrom s = (.ok a, t) ∧ t.background = s.background := by
  obtain ⟨hb, he⟩ := h s rfl
  rcases hr : x.runFrom s with ⟨f | a, t⟩
  · rw [hr] at hb he
    exact .inl ⟨f, t, rfl, he f rfl, hb⟩
  · rw [hr] at hb
    exact .inr ⟨a, t, rfl, hb⟩

end Retains

namespace Compile
variable {b : Background} {line : Text}

theorem lift_quiet {α : Type} (e : Except Fault α) : Quiet b (liftM e : Compile α) :=
  .lift fun _ _ => trivial

/-! ## Writing, levels and elements -/

theorem report_tame (line : Text) : Tame b (report line) := .modify fun _ => rfl

theorem write_tame (line : Text) : Tame b (write line) := .modify fun _ => rfl

theorem overwrite_tame (line : Text) (position : Int) : Tame b (overwrite line position) :=
  .modify fun _ => rfl

theorem push_tame (entry : Option Text) : Tame b (push entry) := .modify fun _ => rfl

theorem depth_failsMildly (t : Indentation) (line : Text) : FailsMildly (t.depth line) := by
  unfold Indentation.depth
  split
  · exact .error rfl
  · split
    · split <;> exact .ok _
    · exact .ok _

theorem blanks_failsMildly (t : Indentation) (level : Int) : FailsMildly (t.blanks level) := by
  unfold Indentation.blanks
  split
  · exact .ok _
  · split
    · exact .error rfl
    · exact .ok _

theorem closings_failsMildly (t : Indentation) (depth : Nat) : FailsMildly (t.closings depth) := by
  unfold Indentation.closings
  dsimp only
  split
  · exact .ok _
  · split
    · exact .error rfl
    · exact .ok _

theorem depth_blankUnit {t t' : Indentation} {k : Nat} (h : t.depth line = .ok (k, t')) :
    t'.unit.all (·.all Text.isBlank) = t.unit.all (·.all Text.isBlank) := by
  unfold Indentation.depth at h
  split at h
  · cases h
  · split at h
    · split at h
      · rename_i hunit
        cases h
        rw [hunit]
        exact List.all_takeWhile
      · cases h
        rfl
    · cases h
      rfl

theorem depthOf_tame (line : Text) : Tame b (depthOf line) := by
  refine .get_bind fun s hs => .lift_bind (depth_failsMildly _ _) fun r hr => ?_
  refine .bind (.set ?_) fun _ => .pure _
  have hunit := depth_blankUnit (k := r.1) hr
  rw [← hs, Session.background, Session.background]
  simp [hunit]

theorem blanks_tame (level : Int) : Tame b (blanks level) :=
  .get_bind fun _ _ => .lift (blanks_failsMildly _ _)

theorem endsElement_tame (element tag : Text) : Tame b (endsElement element tag) := by
  refine .get_bind fun s _ => .bind (.lift (blanks_failsMildly _ _)) fun space => ?_
  dsimp only
  split
  · exact .pure _
  · exact .bind (.lift (Pattern.read_failsMildly _)) fun _ => .pure _

theorem closeLast_tame : Tame b closeLast := by
  refine .get_bind fun s hs => ?_
  split
  · exact .throw rfl
  · refine .bind (.set hs) fun _ => ?_
    split
    · exact .pure _
    · exact write_tame _
    · split
      · exact .bind (report_tame _) fun _ => .throw rfl
      · split
        · exact .pure _
        · exact write_tame _
        · refine .bind (endsElement_tame _ _) fun ends => ?_
          split
          · exact overwrite_tame _ _
          · exact write_tame _

theorem enter_tame (level : Int) (entry : Option (Option Text)) : Tame b (enter level entry) := by
  refine .get_bind fun s _ => ?_
  split
  · exact .pure _
  · refine .bind (blanks_tame _) fun space => .bind (depthOf_tame _) fun depth => ?_
    refine .get_bind fun t _ => .bind (.lift (closings_failsMildly _ _)) fun n => ?_
    refine .bind (.times closeLast_tame n) fun _ => ?_
    split
    · exact .bind (push_tame _) fun _ => .modify fun _ => rfl
    · exact .modify fun _ => rfl

theorem writeLine_tame (depth : Nat) (space opening : Text) (closing element : Option Text) :
    Tame b (writeLine depth space opening closing element) :=
  .bind (enter_tame _ _) fun _ => .bind (.modify fun _ => rfl) fun _ => write_tame _

theorem checkElement_failsMildly (tags : TagTable) (d : Definition) : FailsMildly (checkElement tags d) := by
  unfold checkElement
  split
  · exact .error rfl
  · split
    · exact .ok _
    · refine .forM (fun a => ?_) _
      dsimp only
      split
      · exact .ok _
      · exact .error rfl

theorem definitionLine_tame (handle : Handler) (depth : Nat) (space : Text)
    {d : Definition} (hm : b.methods.get? d.name = none) : Tame b (definitionLine handle depth space d) := by
  refine .get_bind fun s hs => ?_
  have hfree : s.methods.get? d.name = none := by
    rw [← hm, ← hs]
    rfl
  rw [hfree]
  refine .get_bind fun t _ => .bind (.lift (checkElement_failsMildly _ _)) fun _ => ?_
  exact writeLine_tame _ _ _ _ _

/-! ## Verbatim blocks -/

theorem surroundings_failsMildly (isCommand : Bool) (attributes : List Text) :
    FailsMildly (surroundings isCommand attributes) := by
  unfold surroundings
  split
  · exact .ok _
  · exact (Definition.read_failsMildly _).map _
  · exact .ok _
  · exact .error rfl

theorem declareVerbatim_tame (line : Text) : Tame b (declareVerbatim line) := by
  unfold declareVerbatim
  split
  · exact .throw rfl
  · refine .bind (.lift (Definition.read_failsMildly _)) fun d => ?_
    dsimp only
    split
    · exact .throw rfl
    · refine .bind (.lift (surroundings_failsMildly _ _)) fun r => ?_
      obtain ⟨opening, closing⟩ := r
      dsimp only
      split
      · exact .modify fun _ => rfl
      · split
        · exact .modify fun _ => rfl
        · split
          · exact .modify fun _ => rfl
          · exact .throw rfl

theorem markVariables_tame (names : List Text) : Tame b (markVariables names) := by
  induction names with
  | nil => exact .pure _
  | cons v rest ih =>
    refine .get_bind fun s hs => ?_
    dsimp only
    repeat' split
    all_goals first | exact .bind (.set hs) fun _ => ih | exact .bind (.throw rfl) fun _ => ih

theorem openBlock_tame (line : Text) (depth : Nat) : Tame b (openBlock line depth) := by
  refine .bind (.lift (Definition.read_failsMildly _)) fun d => ?_
  refine .bind (.modify fun _ => rfl) fun _ => .bind (markVariables_tame _) fun _ => ?_
  refine .bind (.modify fun _ => rfl) fun _ => .get_bind fun s _ => ?_
  split
  · refine .bind (enter_tame _ _) fun _ => .bind (.modify fun _ => rfl) fun _ => ?_
    exact push_tame _
  · exact .pure _

theorem addToBlock_quiet (line : Text) : Quiet b (addToBlock line) :=
  .get_bind fun _ hs => .bind (lift_quiet _) fun _ => .set hs

theorem evaluateVerbatim_failsMildly (line : Text) (marked : List Text) :
    FailsMildly (Method.evaluateVerbatim [] line marked) := by
  unfold Method.evaluateVerbatim
  cases marked with
  | nil => exact .ok _
  | cons v rest => exact .error rfl

theorem addToBlock_tame (hb : b.globals = []) (line : Text) : Tame b (addToBlock line) := by
  refine .get_bind fun s hs => .bind ?_ fun _ => .set hs
  have hglobals : s.globals = [] := by
    rw [← hb, ← hs]
    rfl
  rw [hglobals]
  exact .lift (evaluateVerbatim_failsMildly _ _)

theorem processBlock_failsMildly (name : Text) (form : VerbatimForm) (text : Text) :
    FailsMildly (processBlock name form text) := by
  unfold processBlock
  split
  · exact .ok _
  · exact .ok _
  · dsimp only
    split
    · exact .ok _
    · exact .error rfl

theorem writeBlock_tame (name : Text) (form : VerbatimForm) : Tame b (writeBlock name form) := by
  refine .get_bind fun s hs => .bind (.lift (processBlock_failsMildly _ _ _)) fun text => ?_
  refine .bind (.set hs) fun _ => ?_
  dsimp only
  split
  · refine .bind (blanks_tame _) fun space => .bind (.modify fun _ => rfl) fun _ => ?_
    refine .get_bind fun t _ => .bind (write_tame _) fun _ => ?_
    exact .bind (.modify fun _ => rfl) fun _ => closeLast_tame
  · refine .get_bind fun t _ => .bind (write_tame _) fun _ => ?_
    exact .bind (.modify fun _ => rfl) fun _ => closeLast_tame

/-! ## Template engines -/

theorem declareEngine_tame (line : Text) : Tame b (declareEngine line) := by
  unfold declareEngine
  split
  · split
    · exact .throw rfl
    · exact .modify fun _ => rfl
  · exact .throw rfl

theorem quotedAttribute_tame (attributes : List Text) (i : Nat) : Tame b (quotedAttribute attributes i) := by
  unfold quotedAttribute
  split
  · exact .pure _
  · exact .throw rfl

theorem addEngineMethod_tame (engine method : Text) {opening : Compile Text}
    {closing : Compile (Option Text)} (hopening : Tame b opening) (hclosing : Tame b closing) :
    Tame b (addEngineMethod engine method opening closing) := by
  refine .get_bind fun s _ => ?_
  split
  · exact .throw rfl
  · refine .bind hopening fun opening => .bind hclosing fun closing => .get_bind fun t _ => ?_
    split
    · exact .throw rfl
    · exact .bind (.modify fun _ => rfl) fun _ => .lift nofun

theorem createEngineMethod_tame (d : EngineDeclaration) : Tame b (createEngineMethod d) := by
  refine addEngineMethod_tame _ _ (quotedAttribute_tame _ _) ?_
  split
  · exact .pure _
  · exact .bind (quotedAttribute_tame _ _) fun _ => .pure _

theorem appendEngineMethod_tame (d : EngineDeclaration) : Tame b (appendEngineMethod d) := by
  unfold appendEngineMethod
  split
  · refine .get_bind fun s _ => ?_
    split
    · exact .throw rfl
    · split
      · exact .throw rfl
      · refine .bind (.modify fun _ => rfl) fun _ => ?_
        exact addEngineMethod_tame _ _ (quotedAttribute_tame _ _) (.pure _)
  · exact .throw rfl

theorem defineEngineMethod_tame (hsign : line.has Assignment.sign = false)
    (hcompound : Assignment.isCompound line = false) : Tame b (defineEngineMethod line) := by
  have hrest : Tame b (if line.has Assignment.sign then assign line
      else if Assignment.isCompound line then discard (assignCompound line) else pure ()) := by
    rw [hsign, hcompound]
    exact .pure _
  unfold defineEngineMethod
  dsimp only
  split
  · refine .bind (.lift (EngineDeclaration.read_failsMildly _)) fun d => ?_
    exact .bind (createEngineMethod_tame d) fun _ => hrest
  · refine .bind (.lift (EngineDeclaration.read_failsMildly _)) fun d => ?_
    exact .bind (appendEngineMethod_tame d) fun _ => hrest

/-! ## Lines that meet verbatim blocks -/

section Meeting
variable {s : Session} {E : Fault → Prop}

theorem depthOf_block (source : Text) : ((depthOf source).runFrom s).2.block = s.block := by
  rw [depthOf, runFrom_bind_ok (runFrom_get s), runFrom_bind, runFrom_liftM]
  cases s.indentation.depth source <;> rfl

/-- Outside of methods, a line that meets a verbatim block opens it, belongs to it, or ends it and is
handled again. -/
theorem verbatimLine_cases (hE : ∀ f, f.isMild → E f) (hd : s.defining = none)
    (hadd : ∀ line, Retains E s.background (addToBlock line)) (source : Text) :
    (∃ (r : Except Fault Bool) (t : Session), (∀ f, r = .error f → E f) ∧ t.background = s.background ∧
        ∀ handle, (verbatimLine handle source).runFrom s = (r, t)) ∨
      (s.block.isSome ∧ ∃ t : Session, t.block = none ∧ t.background = s.background ∧
        ∀ handle, (verbatimLine handle source).runFrom s =
          (do handle source; return true : Compile Bool).runFrom t) := by
  rcases Retains.cases (depthOf_tame source) with ⟨f, t, hrun, hf, hb⟩ | ⟨depth, t, hrun, hb⟩
  · refine .inl ⟨.error f, t, fun g hg => ?_, hb, fun handle => ?_⟩
    · cases hg
      exact hE f hf
    · rw [verbatimLine, runFrom_bind_error hrun]
  have hblock : t.block = s.block := by
    have := depthOf_block (s := s) source
    rwa [hrun] at this
  have hdef : t.isDefining = false := by
    have : t.defining = s.defining := congrArg Background.defining hb
    rw [Session.isDefining, this, hd]
    rfl
  have settled : ∀ z : Compile Bool, Retains E t.background z →
      (∀ handle, (verbatimLine handle source).runFrom s = z.runFrom t) →
      ∃ (r : Except Fault Bool) (t : Session), (∀ f, r = .error f → E f) ∧ t.background = s.background ∧
        ∀ handle, (verbatimLine handle source).runFrom s = (r, t) := by
    intro z hz h
    exact ⟨_, _, (hz t rfl).2, (hz t rfl).1.trans hb, h⟩
  have tame : ∀ {α : Type} {x : Compile α}, Tame t.background x → Retains E t.background x :=
    fun hx => hx.mono hE
  cases hopen : t.block with
  | none =>
    refine .inl (settled _ (.bind (tame (openBlock_tame source depth)) fun _ => .pure false)
      fun handle => ?_)
    rw [verbatimLine, runFrom_bind_ok hrun, runFrom_bind_ok (runFrom_get t), hopen]
  | some name =>
    cases hform : t.verbatims.get? name with
    | none =>
      refine .inl (settled (throw .unknownKey) (.throw (hE _ rfl)) fun handle => ?_)
      rw [verbatimLine, runFrom_bind_ok hrun, runFrom_bind_ok (runFrom_get t), hopen]
      simp [runFrom_bind, hform]
    | some form =>
      by_cases hdeep : depth > t.blockLevel
      · refine .inl (settled _ (.bind (hb ▸ hadd source) fun _ => .pure false) fun handle => ?_)
        rw [verbatimLine, runFrom_bind_ok hrun, runFrom_bind_ok (runFrom_get t), hopen]
        simp [runFrom_bind, hform, hdeep, hdef]
      · have hrest : ∀ handle : Handler, (verbatimLine handle source).runFrom s = (do
            writeBlock name form
            modify fun s => { s with block := none }
            handle source
            return true : Compile Bool).runFrom t := by
          intro handle
          rw [verbatimLine, runFrom_bind_ok hrun, runFrom_bind_ok (runFrom_get t), hopen]
          simp [runFrom_bind, hform, hdeep, hdef]
        rcases Retains.cases (s := t) (writeBlock_tame name form) with ⟨f, t', hw, hf, hb'⟩ | ⟨_, t', hw, hb'⟩
        · refine .inl ⟨.error f, t', fun g hg => ?_, hb'.trans hb, fun handle => ?_⟩
          · cases hg
            exact hE f hf
          · rw [hrest, runFrom_bind_error hw]
        · refine .inr ⟨by rw [← hblock, hopen]; rfl, { t' with block := none }, rfl, hb'.trans hb,
            fun handle => ?_⟩
          rw [hrest, runFrom_bind_ok hw, runFrom_bind_ok (runFrom_modify _ t')]

end Meeting

end Compile
end OutlineMarkup
