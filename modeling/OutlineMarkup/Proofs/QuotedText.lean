import OutlineMarkup.Document
import OutlineMarkup.Proofs.Background
import OutlineMarkup.Proofs.QuotedAssignments

/-!
# Texts in quotes

A text in double quotes is written as it stands, unless something in it makes the line a declaration:
the tests for declarations look for their signs and words anywhere in a line, quotes or not.
-/

namespace OutlineMarkup
open Text Action List Assignment Session Bool

/-- Text is placed: a line without an end tag. -/
def Session.addText (s : Session) (space t : Text) : Session :=
  { s with
    elements := none :: s.elements
    lastElement := none
    written := (space ++ t ++ ['\n']).reverse ++ s.written }

/-- Nothing in the text makes a line with it a declaration, and no kind of block has its name. -/
def isPlainText (verbatims : Table VerbatimForm) (t : Text) : Bool :=
  !t.has Assignment.sign && !Assignment.isCompound t && !t.has "TemplateEngine" &&
    !Compile.declaresVerbatim t && !verbatims.has ('"' :: t ++ ['"'])

namespace Compile
variable {s s₁ : Session} {u t e : Text} {k : Nat} {handle : Handler}

theorem endsElement_state (element tag : Text) : ((endsElement element tag).runFrom s).2 = s := by
  rw [endsElement, runFrom_bind_ok (runFrom_get s), runFrom_bind, runFrom_liftM]
  cases s.indentation.blanks s.indentation.level with
  | error f => rfl
  | ok space =>
    dsimp only
    split
    · rfl
    · rw [runFrom_bind, runFrom_liftM]
      cases Pattern.read ('^' :: (space ++ "</" ++ element ++ ['>'])) <;> rfl

theorem closeLast_ok (h : closeLast.runFrom s = (.ok (), s₁)) :
    s₁ = { s with elements := s₁.elements, written := s₁.written } ∧
      ∃ top, s.elements = top :: s₁.elements ∧ (top = none → s₁.written = s.written) := by
  rw [closeLast, runFrom_bind_ok (runFrom_get s)] at h
  cases helements : s.elements with
  | nil =>
    rw [helements] at h
    cases h
  | cons top rest =>
    rw [helements] at h
    simp only [runFrom_bind, runFrom_set] at h
    cases top with
    | none =>
      cases h
      exact ⟨rfl, none, rfl, fun _ => rfl⟩
    | some tag =>
      cases hlast : s.lastElement with
      | none =>
        rw [hlast] at h
        cases h
        exact ⟨rfl, some tag, rfl, by simp⟩
      | some element =>
        simp only [hlast] at h
        split at h
        · cases h
        · split at h
          · cases h
            exact ⟨rfl, some tag, rfl, by simp⟩
          · cases h
            exact ⟨rfl, some tag, rfl, by simp⟩
          · have hstate := endsElement_state (s := { s with elements := rest }) element tag
            simp only [hlast] at hstate
            rw [runFrom_bind] at h
            generalize (endsElement element tag).runFrom _ = r at h hstate
            obtain ⟨f | ends, s'⟩ := r
            · cases h
            · cases hstate
              cases ends <;> cases h <;> exact ⟨rfl, some tag, rfl, by simp⟩

theorem unescapeDollars_text (hspace : ∀ c ∈ u, isBlank c)
    (ht : ∀ c ∈ t, isTextChar c) : unescapeDollars (u ++ (t ++ ['\n'])) = u ++ (t ++ ['\n']) := by
  refine unescapeDollars_eq_self fun hm => ?_
  rcases mem_append.mp hm with hm | hm
  · have := hspace _ hm
    cases this
  · rcases mem_append.mp hm with hm | hm
    · exact not_mem_of_all ht (by decide) hm
    · cases mem_singleton.mp hm

section Level
variable (hdefining : s.defining = none) (hfresh : s.indentation.fresh = false) (hlevel : s.indentation.level = k)
  (hu : Indents u) (hunit : k = 0 ∨ s.indentation.unit = some u) (hclose : closeLast.runFrom s = (.ok (), s₁))
include hdefining hfresh hlevel hu hunit hclose

theorem enter_level : (enter k (some none)).runFrom s = (.ok (), { s₁ with elements := none :: s₁.elements }) := by
  have hdef := isDefining_eq_false hdefining
  have hblanks : (blanks k).runFrom s = (.ok (u.times k), s) := blanks_run hunit.symm
  have hdepth : (depthOf (u.times k ++ ['|'])).runFrom s = (.ok k, s) := depthOf_bar hunit.symm hu
  have hclosings : s.indentation.closings k = .ok 1 := by
    simp [Indentation.closings, hfresh, hlevel]
  have hindentation : s₁.indentation = s.indentation := by rw [(closeLast_ok hclose).1]
  have hplace : s₁.indentation.place k = s₁.indentation := by
    rw [hindentation, Indentation.place, ← hlevel, ← hfresh]
  simp [enter, runFrom_bind, hdef, hblanks, hdepth, hclosings, Action.times, hclose, push, hplace]

theorem writeLine_text (ht : ∀ c ∈ t, isTextChar c) :
    (writeLine k (u.times k) (t ++ ['\n']) none none).runFrom s = (.ok (), s₁.addText (u.times k) t) := by
  simp [writeLine, runFrom_bind, enter_level hdefining hfresh hlevel hu hunit hclose, write,
    unescapeDollars_text hu.blank_times ht, addText]

end Level

/-! ## The tests -/

def quotedLine (space t e : Text) : Text := space ++ '"' :: (t ++ '"' :: e)

section Tests
variable {space : Text}

theorem has_quotedLine (hspace : ∀ c ∈ space, isBlank c) (he : LineEnd e) {part : Text}
    (hne : part ≠ []) (hpart : ∀ c ∈ part, isBlank c = false ∧ c ≠ '"') :
    (quotedLine space t e).has part = t.has part := by
  have hblank : ∀ c ∈ part, ∀ r : Text, (∀ d ∈ r, isBlank d = true) → c ∉ r := by
    intro c hc r hr hm
    have h := hr c hm
    rw [(hpart c hc).1] at h
    cases h
  have hleft : ∀ c ∈ part, c ∉ space ++ ['"'] := by
    intro c hc hm
    rcases mem_append.mp hm with hm | hm
    · exact hblank c hc _ hspace hm
    · exact (hpart c hc).2 (mem_singleton.mp hm)
  have hright : ∀ c ∈ part, c ∉ '"' :: e := by
    intro c hc hm
    rcases List.mem_cons.mp hm with hm | hm
    · exact (hpart c hc).2 hm
    · exact hblank c hc _ he.isBlank hm
  have hcut : quotedLine space t e = (space ++ ['"']) ++ (t ++ '"' :: e) := by simp [quotedLine]
  rw [hcut, Bool.eq_iff_iff, has_iff_isInfix, has_iff_isInfix]
  constructor
  · intro h
    exact infix_of_infix_append_right hne hright (infix_of_infix_append_left hne hleft h)
  · intro h
    exact h.trans ⟨space ++ ['"'], '"' :: e, by simp⟩

theorem solid_quoted (t : Text) : Solid ('"' :: (t ++ ['"'])) :=
  ⟨⟨'"', rfl, rfl⟩, ⟨'"', by simp [getLast?_cons], rfl⟩⟩

theorem trim_quotedLine (hspace : ∀ c ∈ space, isBlank c) (he : LineEnd e) :
    (quotedLine space t e).trim = '"' :: (t ++ ['"']) := by
  have hcut : quotedLine space t e = space ++ ('"' :: (t ++ ['"']) ++ e) := by simp [quotedLine]
  rw [hcut]
  exact trim_append_solid hspace he.isBlank (solid_quoted t)

theorem head?_quotedLine (hspace : ∀ c ∈ space, isBlank c) :
    ∀ c ∈ (quotedLine space t e).head?, isBlank c ∨ c = '"' := by
  intro c hc
  cases space with
  | nil => exact .inr (by simpa [quotedLine] using hc.symm)
  | cons d r =>
    obtain rfl : d = c := by simpa [quotedLine] using hc
    exact .inl (hspace d mem_cons_self)

theorem isPrefixOf_quotedLine (hspace : ∀ c ∈ space, isBlank c) {c : Char} {w : Text}
    (hc : isBlank c = false ∧ c ≠ '"') : (c :: w).isPrefixOf (quotedLine space t e) = false := by
  have hhead := head?_quotedLine (t := t) (e := e) hspace
  cases hline : quotedLine space t e with
  | nil => rfl
  | cons d r =>
    have hcd : c ≠ d := by
      rintro rfl
      rw [hline] at hhead
      rcases hhead c rfl with h | h
      · rw [hc.1] at h
        cases h
      · exact hc.2 h
    simp [isPrefixOf, hcd]

theorem declaresVerbatim_quoted (t : Text) : declaresVerbatim ('"' :: (t ++ ['"'])) = declaresVerbatim t := by
  have hpieces : pieces (!isWordChar ·) ('"' :: (t ++ ['"'])) = [] :: (pieces (!isWordChar ·) t ++ [[]]) := by
    have hfirst := pieces_append_cons (p := (!isWordChar ·)) (a := []) (b := t ++ ['"']) (c := '"')
      (by simp) (by decide)
    rw [nil_append] at hfirst
    rw [hfirst, pieces_concat (by decide)]
  rw [declaresVerbatim, hpieces, declaresVerbatim]
  simp

theorem isCompound_quotedLine (hspace : ∀ c ∈ space, isBlank c) (he : LineEnd e) :
    isCompound (quotedLine space t e) = isCompound t := by
  have hops : ∀ op ∈ operators, op.1 ≠ [] ∧ ∀ c ∈ op.1, isBlank c = false ∧ c ≠ '"' := by
    decide
  rw [isCompound, isCompound, Bool.eq_iff_iff, any_eq_true, any_eq_true]
  refine exists_congr fun op => and_congr_right fun hop => ?_
  change (quotedLine space t e).has op.1 ↔ t.has op.1
  rw [has_quotedLine hspace he (hops op hop).1 (hops op hop).2]

theorem has_sign_quoted (t : Text) : has ('"' :: (t ++ ['"'])) sign = t.has sign := by
  have h : (quotedLine [] t []).has sign = t.has sign :=
    has_quotedLine (by simp) (.inl rfl) (by decide) (by decide)
  exact h

theorem undeclared_quotedLine (hspace : ∀ c ∈ space, isBlank c) (he : LineEnd e)
    {verbatims : Table VerbatimForm} (hplain : isPlainText verbatims t) :
    Undeclared (quotedLine space t e) := by
  simp only [isPlainText, and_eq_true, not_eq_true'] at hplain
  obtain ⟨⟨⟨⟨hsign, hcompound⟩, hengine⟩, hverbatim⟩, _⟩ := hplain
  have htrim := trim_quotedLine (t := t) hspace he
  refine ⟨?_, ?_, ?_, ?_, ?_, ?_, ?_, ?_⟩
  · rw [htrim, declaresVerbatim_quoted]
    exact hverbatim
  · rw [htrim]
    rfl
  · exact isPrefixOf_quotedLine hspace ⟨rfl, by decide⟩
  · rw [htrim, has_sign_quoted]
    exact hsign
  · rw [isCompound_quotedLine hspace he]
    exact hcompound
  · exact isPrefixOf_quotedLine hspace ⟨rfl, by decide⟩
  · rw [has_quotedLine hspace he (by decide) (by decide)]
    exact hengine
  · intro heq
    have hhead := head?_quotedLine (t := t) (e := e) hspace '!' (by rw [heq]; rfl)
    exact absurd hhead (by decide)

end Tests

/-! ## Parts of a session that stay -/

/-- An action leaves a part of the session alone, whether it succeeds or fails. -/
def Fixes {α β : Type} (part : Session → β) (x : Compile α) : Prop :=
  ∀ s, part (x.runFrom s).2 = part s

namespace Fixes
variable {α β γ : Type} {part : Session → β} {s t : Session}

theorem pure (a : α) : Fixes part (pure a : Compile α) := fun _ => rfl

theorem throw (f : Fault) : Fixes part (throw f : Compile α) := fun _ => rfl

theorem lift (e : Except Fault α) : Fixes part (liftM e : Compile α) := by
  intro s
  rw [runFrom_liftM]

theorem modify {g : Session → Session} (h : ∀ s, part (g s) = part s) :
    Fixes part (modify g : Compile PUnit) := h

theorem bind {x : Compile α} {k : α → Compile γ} (hx : Fixes part x) (hk : ∀ a, Fixes part (k a)) :
    Fixes part (x >>= k) := by
  intro s
  have hfirst := hx s
  rcases hr : x.runFrom s with ⟨f | a, t⟩
  · rw [runFrom_bind_error hr]
    rwa [hr] at hfirst
  · rw [runFrom_bind_ok hr]
    rw [hr] at hfirst
    exact (hk a t).trans hfirst

theorem get_bind {k : Session → Compile γ} (hk : ∀ s, part ((k s).runFrom s).2 = part s) :
    Fixes part (get >>= k) := by
  intro s
  rw [runFrom_bind_ok (runFrom_get s)]
  exact hk s

theorem get_bind_fixes {k : Session → Compile γ} (hk : ∀ s, Fixes part (k s)) : Fixes part (get >>= k) :=
  get_bind fun s => hk s s

theorem set_bind {k : PUnit → Compile γ} (h : part t = part s)
    (hk : Fixes part (k PUnit.unit)) : part ((set t >>= k : Compile γ).runFrom s).2 = part s := by
  rw [runFrom_bind_ok (runFrom_set _ _)]
  exact (hk t).trans h

theorem of_run {x : Compile α} (hx : Fixes part x) {r : Except Fault α}
    (h : x.runFrom s = (r, t)) : part t = part s := by
  have hstate := hx s
  rwa [h] at hstate

theorem times {x : Compile Unit} (hx : Fixes part x) (n : Nat) : Fixes part (times x n) := by
  induction n with
  | zero => exact pure ()
  | succ n ih => exact hx.bind fun _ => ih

end Fixes

def placed (s : Session) : List (Option Text) × Text := (s.elements, s.written)

theorem resolve_fixes {β : Type} {part : Session → β} (text : Text) (ignored : List Text) :
    Fixes part (resolve text ignored) := .get_bind_fixes fun _ => .bind (.lift _) fun _ => .lift _

theorem assignEach_fixes (text : Text) (targets : List Text) : Fixes placed (assignEach text targets) := by
  induction targets with
  | nil => exact .pure _
  | cons target rest ih =>
    rw [assignEach]
    split
    · exact .bind (.throw _) fun _ => ih
    · split
      · exact .bind (resolve_fixes _ _) fun _ => .bind (.modify fun _ => rfl) fun _ => ih
      · exact .bind (.throw _) fun _ => ih

theorem assign_fixes (line : Text) : Fixes placed (assign line) := by
  rw [assign]
  split
  · exact .bind (.throw _) fun _ => assignEach_fixes _ _
  · exact assignEach_fixes _ _

theorem declareVerbatim_fixes (line : Text) : Fixes placed (declareVerbatim line) := by
  unfold declareVerbatim
  split
  · exact .throw _
  · refine .bind (.lift _) fun d => ?_
    dsimp only
    split
    · exact .throw _
    · refine .bind (.lift _) fun r => ?_
      repeat' split
      all_goals exact .modify fun _ => rfl

theorem declareEngine_fixes (line : Text) : Fixes placed (declareEngine line) := by
  rw [declareEngine]
  split
  · split
    · exact .bind (.throw _) fun _ => .modify fun _ => rfl
    · exact .modify fun _ => rfl
  · exact .throw _

theorem placed_of_declaration {x : Compile Unit} {d : Compile (Option Text)} {m : Handler}
    {s' : Session} (hd : d.runFrom s = (do x; return none : Compile (Option Text)).runFrom s)
    (hx : Fixes placed x)
    (h : (d >>= fun tag? => tag?.elim (pure ()) m).runFrom s = (.ok (), s')) : placed s' = placed s := by
  rw [runFrom_bind, hd, runFrom_bind] at h
  rcases hrun : x.runFrom s with ⟨f | _, t⟩
  · rw [hrun] at h
    cases h
  · rw [hrun] at h
    cases h
    exact hx.of_run hrun

/-! ## Blocks named like a text -/

theorem depthOf_fixes (line : Text) : Fixes block (depthOf line) := .get_bind fun s => by
    rw [runFrom_bind, runFrom_liftM]
    cases s.indentation.depth line with
    | error f => rfl
    | ok r => exact Fixes.set_bind rfl (.pure _)

theorem closeLast_fixes : Fixes block closeLast := by
  refine .get_bind fun s => ?_
  split
  · rfl
  · refine Fixes.set_bind rfl ?_
    split
    · exact .pure _
    · exact .modify fun _ => rfl
    · split
      · exact .bind (.modify fun _ => rfl) fun _ => .throw _
      · split
        · exact .pure _
        · exact .modify fun _ => rfl
        · refine .bind ?_ fun ends => ?_
          · exact fun s => congrArg block (endsElement_state _ _)
          · split
            · exact .modify fun _ => rfl
            · exact .modify fun _ => rfl

theorem enter_fixes (level : Int) (entry : Option Text) : Fixes block (enter level (some entry)) := by
  refine .get_bind_fixes fun s => ?_
  split
  · exact .pure _
  · refine .bind (.get_bind_fixes fun _ => .lift _) fun space => .bind (depthOf_fixes _) fun depth => ?_
    refine .get_bind_fixes fun t => .bind (.lift _) fun n => .bind (closeLast_fixes.times n) fun _ => ?_
    exact .bind (.modify fun _ => rfl) fun _ => .modify fun _ => rfl

theorem markVariables_fixes (names : List Text) : Fixes block (markVariables names) := by
  induction names with
  | nil => exact .pure _
  | cons v rest ih =>
    refine .get_bind fun s => ?_
    dsimp only
    repeat' split
    all_goals first | exact Fixes.set_bind rfl ih | rfl

theorem openBlock_block {line : Text} {depth : Nat} (h : (openBlock line depth).runFrom s = (.ok (), s₁)) :
    s₁.block.isSome := by
  rw [openBlock, runFrom_bind, runFrom_liftM] at h
  cases hd : Definition.read line.trim with
  | error f =>
    rw [hd] at h
    cases h
  | ok d =>
    rw [hd] at h
    dsimp only at h
    rw [runFrom_bind_ok (runFrom_modify _ _)] at h
    have hrest : Fixes block (do
        markVariables d.attributes
        modify fun s => { s with blockLevel := depth }
        if !(← get).isDefining then
          enter depth (some none)
          modify fun s => { s with lastElement := none }
          push none : Compile Unit) := by
      refine .bind (markVariables_fixes _) fun _ => .bind (.modify fun _ => rfl) fun _ => ?_
      refine .get_bind_fixes fun t => ?_
      split
      · exact .bind (enter_fixes _ _) fun _ => .bind (.modify fun _ => rfl) fun _ => .modify fun _ => rfl
      · exact .pure _
    have hblock : s₁.block = some d.name := (congrArg (·.2.block) h).symm.trans (hrest _)
    rw [hblock]
    rfl

/-! ## The line -/

/-- Nothing is being collected and a line has been placed, at level `k`. -/
structure Waits (u : Text) (k : Nat) (s : Session) : Prop where
  block : s.block = none
  loops : s.loops = []
  defining : s.defining = none
  fresh : s.indentation.fresh = false
  level : s.indentation.level = k
  unit : k = 0 ∨ s.indentation.unit = some u
  indents : Indents u

theorem depthOf_quotedLine (hs : Waits u k s) :
    (depthOf (quotedLine (u.times k) t e)).runFrom s = (.ok k, s) := by
  have hdepth : s.indentation.depth (u.times k ++ '"' :: (t ++ '"' :: e)) = .ok (k, s.indentation) :=
    depth_known hs.indents hs.unit.symm rfl rfl
  simp only [depthOf, quotedLine, runFrom_bind, runFrom_get, hdepth, runFrom_liftM, runFrom_set, runFrom_pure]

theorem blockName_quoted (ht : ∀ c ∈ t, isTextChar c) :
    blockName ('"' :: (t ++ ['"'])) = '"' :: (t ++ ['"']) := by
  have hparen : has ('"' :: (t ++ ['"'])) "(" = false := by
    refine has_eq_false_of_not_mem (c := '(') (by decide) ?_
    simp [not_mem_of_all ht (d := '(') (by decide)]
  rw [blockName, before_eq_self hparen]
  simp [trimOf, dropRightWhile]

section Line
variable (hs : Waits u k s) (ht : ∀ c ∈ t, isTextChar c) (he : LineEnd e) {s' : Session}
include hs ht he

theorem line_quotedLine (hname : s.verbatims.has ('"' :: (t ++ ['"'])) = false) :
    (line handle (quotedLine (u.times k) t e)).runFrom s =
      (plainLine handle k (u.times k) (quotedLine (u.times k) t e)).runFrom s := by
  have hexpand : Shorthand.expand (quotedLine (u.times k) t e) = .ok (quotedLine (u.times k) t e) := by
    refine shorthand_eq_self ?_
    have hspace : '[' ∉ u.times k := fun hm => by cases hs.indents.blank_times _ hm
    simp [quotedLine, hspace, not_mem_of_all ht (d := '[') (by decide), he.not_mem (c := '[') (by decide)]
  have hblanks : (blanks k).runFrom s = (.ok (u.times k), s) := blanks_run hs.unit.symm
  simp only [line, runFrom_bind, depthOf_quotedLine hs, hblanks, runFrom_get,
    trim_quotedLine hs.indents.blank_times he, blockName_quoted ht, hname, hs.block, Option.isSome_none,
    Bool.or_self, Bool.false_eq_true, if_false, isEmpty_cons, head?_cons, hexpand]
  rfl

theorem line_plainText (hclose : closeLast.runFrom s = (.ok (), s₁)) (hplain : isPlainText s.verbatims t) :
    (line handle (quotedLine (u.times k) t e)).runFrom s = (.ok (), s₁.addText (u.times k) t) := by
  have hspace := hs.indents.blank_times (k := k)
  have hname : s.verbatims.has ('"' :: (t ++ ['"'])) = false := by
    simp only [isPlainText, and_eq_true, not_eq_true'] at hplain
    exact hplain.2
  have hparen : ∀ r : Text, '(' ∉ r → '(' ∉ '"' :: (t ++ '"' :: r) := by
    intro r hr
    simp [not_mem_of_all ht (d := '(') (by decide), hr]
  have hline : '(' ∉ quotedLine (u.times k) t e := by
    intro hm
    rcases mem_append.mp hm with hm | hm
    · cases hspace _ hm
    · exact hparen e (he.not_mem (by decide)) hm
  have hdollar : '$' ∉ '"' :: (t ++ ['"']) := by simp [not_mem_of_all ht (d := '$') (by decide)]
  have hbracket : '[' ∉ '"' :: (t ++ ['"']) := by simp [not_mem_of_all ht (d := '[') (by decide)]
  have hresolve : (resolve ('"' :: (t ++ ['"'])) []).runFrom s = (.ok ('"' :: (t ++ ['"'])), s) :=
    resolve_unchanged (allFrom_eq_nil hdollar none) (.inr (hparen [] not_mem_nil)) hbracket
  have hinner : Text.inner ('"' :: (t ++ ['"'])) = t := by simp [Text.inner]
  rw [line_quotedLine hs ht he hname, (undeclared_quotedLine hspace he hplain).plainLine_run (.inr hline)
    hs.loops hs.defining, trim_quotedLine hspace he]
  simp only [markupLine, runFrom_bind, hresolve, hinner]
  exact writeLine_text hs.defining hs.fresh hs.level hs.indents hs.unit hclose ht

variable (h : (line handle (quotedLine (u.times k) t e)).runFrom s = (.ok (), s'))
include h

theorem line_blockName (hname : s.verbatims.has ('"' :: (t ++ ['"']))) : s'.block.isSome := by
  have hblanks : (blanks k).runFrom s = (.ok (u.times k), s) := blanks_run hs.unit.symm
  simp only [line, verbatimLine, runFrom_bind, depthOf_quotedLine hs, hblanks, runFrom_get,
    trim_quotedLine hs.indents.blank_times he, blockName_quoted ht, hname, hs.block, hs.loops,
    Option.isSome_none, Bool.or_true, if_true, isEmpty_nil, Bool.not_true, Bool.false_and,
    Bool.false_eq_true, if_false] at h
  rcases hrun : (openBlock (quotedLine (u.times k) t e) k).runFrom s with ⟨f | ⟨⟩, t'⟩
  · simp only [hrun] at h
    cases h
  · have hblock := openBlock_block hrun
    simp only [hrun, runFrom_pure, Bool.false_or] at h
    have hdef : t'.isDefining = false := by
      have hretains := (openBlock_tame (b := s.background) (quotedLine (u.times k) t e) k s rfl).1
      rw [hrun] at hretains
      have hdefining : t'.defining = s.defining := congrArg Background.defining hretains
      rw [isDefining, hdefining, hs.defining]
      rfl
    simp only [hdef] at h
    cases h
    exact hblock

theorem line_declaration (hname : s.verbatims.has ('"' :: (t ++ ['"'])) = false)
    (hplain : isPlainText s.verbatims t = false)
    (hmark : isCompound t = false ∨ t.has Call.expressionMark = false) : placed s' = placed s := by
  rw [line_quotedLine hs ht he hname] at h
  have hspace := hs.indents.blank_times (k := k)
  have htrim := trim_quotedLine (t := t) hspace he
  cases hverbatim : declaresVerbatim t with
  | true =>
    have hrun : (declareVerbatim ('"' :: (t ++ ['"']))).runFrom s = (.ok (), s') := by
      rw [← h]
      simp [plainLine, runFrom_bind, htrim, declaresVerbatim_quoted, hverbatim]
    exact (declareVerbatim_fixes _).of_run hrun
  | false =>
    have hdef := isDefining_eq_false hs.defining
    have hloop : isLoopStart ('"' :: (t ++ ['"'])) = false := rfl
    have hmethod : isMethodStart (quotedLine (u.times k) t e) = false :=
      isPrefixOf_quotedLine hspace ⟨rfl, by decide⟩
    have hrun : (plainLine handle k (u.times k) (quotedLine (u.times k) t e)).runFrom s =
        (declarationLine handle k (quotedLine (u.times k) t e) >>= fun tag? =>
          tag?.elim (pure ()) (markupLine handle k (u.times k))).runFrom s := by
      simp only [plainLine, runFrom_bind, runFrom_get, htrim, declaresVerbatim_quoted, hverbatim,
        hdef, hs.loops, hloop, hmethod, isEmpty_nil, Bool.not_true, Bool.not_false, Bool.or_self,
        Bool.and_false, Bool.false_eq_true, if_false]
      rcases (declarationLine handle k (quotedLine (u.times k) t e)).runFrom s with ⟨_ | _ | _, _⟩ <;> rfl
    rw [hrun] at h
    have hcompounds := isCompound_quotedLine (t := t) hspace he
    cases hsign : t.has sign with
    | true =>
      refine placed_of_declaration (x := assign ('"' :: (t ++ ['"']))) ?_ (assign_fixes _) h
      simp [declarationLine, htrim, has_sign_quoted, hsign]
    | false =>
      cases hcompound : isCompound t with
      | true =>
        obtain ⟨f, hf⟩ := assignCompound_quoted hspace ht he hcompound
          (hmark.resolve_left (by rw [hcompound]; decide)) s
        rcases hassign : (assignCompound (quotedLine (u.times k) t e)).runFrom s with ⟨g | _, t'⟩
        · simp only [declarationLine, htrim, has_sign_quoted, hsign, hcompounds, hcompound, Bool.false_eq_true,
            if_false, if_true, runFrom_bind, hassign] at h
          cases h
        · have hfailed := congrArg Prod.fst hassign
          rw [quotedLine, hf] at hfailed
          cases hfailed
      | false =>
        have himport : "import ".toList.isPrefixOf (quotedLine (u.times k) t e) = false :=
          isPrefixOf_quotedLine hspace ⟨rfl, by decide⟩
        have hengine : (quotedLine (u.times k) t e).has "TemplateEngine" := by
          rw [has_quotedLine hspace he (by decide) (by decide)]
          simpa [isPlainText, hsign, hcompound, hverbatim, hname] using hplain
        refine placed_of_declaration (x := declareEngine ('"' :: (t ++ ['"']))) ?_ (declareEngine_fixes _) h
        simp only [declarationLine, htrim, has_sign_quoted, hsign, hcompounds, hcompound, himport, hengine,
          Bool.false_eq_true, if_false, if_true]

end Line

/-- Where nothing is being collected, a text in quotes on a line at the current level is placed behind
what the level closes, and nothing else changes, if and only if it is a plain text. A marked expression
matters only beside a compound operator. -/
theorem line_quoted_iff (handle : Text → Compile Unit) (s s₁ : Session) (u t e : Text) (k : Nat)
    (hs : Waits u k s) (hclose : closeLast.runFrom s = (.ok (), s₁))
    (ht : t.all isTextChar = true) (he : LineEnd e)
    (hmark : Assignment.isCompound t = false ∨ t.has Call.expressionMark = false) :
    s₁ = { s with elements := s.elements.tail, written := s₁.written } ∧
      ((line handle (quotedLine (u.times k) t e)).runFrom s = (.ok (), s₁.addText (u.times k) t) ↔
        isPlainText s.verbatims t = true) := by
  rw [List.all_eq_true] at ht
  obtain ⟨hframe, top, helements, hwritten⟩ := closeLast_ok hclose
  refine ⟨by rw [helements]; exact hframe, fun h => ?_, line_plainText hs ht he hclose⟩
  by_contra hplain
  rw [Bool.not_eq_true] at hplain
  cases hname : s.verbatims.has ('"' :: (t ++ ['"'])) with
  | true =>
    have hblock := line_blockName hs ht he h hname
    have hnone : s₁.block = none := by rw [hframe]; exact hs.block
    rw [Session.addText, hnone] at hblock
    cases hblock
  | false =>
    obtain ⟨hlines, htext⟩ := Prod.mk.inj (line_declaration hs ht he h hname hplain hmark)
    obtain rfl : none = top := by
      rw [helements] at hlines
      exact (List.cons.inj hlines).1
    have hlength := congrArg List.length htext
    rw [Session.addText, hwritten rfl, List.length_append, List.length_reverse] at hlength
    simp only [List.length_append, List.length_singleton] at hlength
    omega

def sampleSession : Session where
  tags := [("*", ⟨.normal, none⟩)]
  indentation := { level := 1, unit := some ['\t'], fresh := false }
  elements := [none, some "</p>\n"]
  written := "<p>\n\tx\n".toList.reverse

theorem line_quoted_iff_sample :
    (line (lineTo 0) "\t\"import a.b, for x = y: # 1\"\n").runFrom sampleSession =
      (.ok (), { sampleSession with
        written := "<p>\n\tx\n\timport a.b, for x = y: # 1\n".toList.reverse }) := by
  have h := line_quoted_iff (lineTo 0) sampleSession
    { sampleSession with elements := [some "</p>\n"] } "\t"
    "import a.b, for x = y: # 1" "\n" 1
    ⟨rfl, rfl, rfl, rfl, rfl, Or.inr rfl, ⟨by decide, by decide⟩⟩ rfl (by decide) (Or.inr rfl)
    (by decide)
  exact h.2.mpr (by decide)

/-- An assignment, in quotes or not, is made where a text should be written. -/
theorem quotedAssignment_not_placed :
    (Document.compile sampleSession.tags [("a", "p\n\"a := b\"\n")] "a").output =
        "<p>\n" ∧
      (Document.compile sampleSession.tags [("a", "p\n\"a := b\"\n")]
        "a").fault.isSome = true ∧
      "a := b".toList.all isTextChar = true ∧ Assignment.isCompound "a := b" = false :=
  ⟨by decide +kernel, by decide +kernel, by decide, by decide⟩

end Compile
end OutlineMarkup
