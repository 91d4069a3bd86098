import Mathlib.Data.List.Forall2
import OutlineMarkup.Proofs.Trace

/-!
# Lines

How a session handles a line that stands for markup. While nothing is being collected the line
goes through unchanged, and is placed on the page; the first line that is indented also tells the
unit of indentation.
-/

namespace OutlineMarkup
open Action List Text Compile Bool Session Shorthand Markup
variable {x : Compile Unit} {u : Text} {s : Session} {tags : TagTable} {inv : Store → Prop}
  {p : Page}

namespace Session

/-- The session once a line at a depth has been read: an indented line tells the unit. -/
def learn (u : Text) (k : Nat) (s : Session) : Session :=
  { s with indentation :=
    { s.indentation with unit := if k = 0 then s.indentation.unit else some u } }

abbrev endDefinition (s : Session) : Session := { s with defining := none }

/-- A line behind `k` units is read at depth `k`. -/
def Reads (u : Text) (k : Nat) (s : Session) : Prop :=
  s.indentation.unit = some u ∨ (s.indentation.unit = none ∧ k ≤ 1)

/-- Nothing is being collected, and every line that the page has room for is read at its depth. -/
structure Idle (tags : TagTable) (u : Text) (s : Session) : Prop where
  table : s.tags = tags
  block : s.block = none
  verbatims : s.verbatims = []
  loops : s.loops = []
  defining : s.defining = none
  unit : s.indentation.unit = some u ∨ (s.indentation.unit = none ∧ s.page.room ≤ 1)
  regular : s.page.Regular
  known : s.page.Known s.tags

variable {tags : TagTable} {u : Text} {k : Nat} {s : Session} {p : Page}

theorem endDefinition_eq (h : s.defining = none) : s.endDefinition = s := by rw [endDefinition, ← h]

@[simp] theorem page_learn : (s.learn u k).page = s.page := rfl

theorem learn_unit : (s.learn u k).indentation.unit = some u ∨ k = 0 := by
  by_cases hk : k = 0
  · exact .inr hk
  · exact .inl (by simp [learn, hk])

theorem learn_learn : (s.learn u k).learn u k = s.learn u k := by
  by_cases hk : k = 0 <;> simp [learn, hk]

theorem learn_of_unit (h : s.indentation.unit = some u) (k : Nat) : s.learn u k = s := by
  by_cases hk : k = 0
  · simp [learn, hk]
  · simp [learn, hk, ← h]

theorem Reads.learn (h : s.Reads u k) : (s.learn u k).Reads u k := by
  rcases learn_unit (s := s) (u := u) (k := k) with hunit | rfl
  · exact .inl hunit
  · exact h

theorem Idle.reads (h : s.Idle tags u) (hk : k ≤ s.page.room) : s.Reads u k := by
  rcases h.unit with hunit | ⟨hunit, hroom⟩
  · exact .inl hunit
  · exact .inr ⟨hunit, hk.trans hroom⟩

theorem Idle.knowsUnit (h : s.Idle tags u) : (s.learn u k).KnowsUnit u k := by
  rcases h.unit with hunit | ⟨hunit, hroom⟩
  · exact .inl (by simp [learn, hunit])
  · by_cases hzero : k = 0
    · refine .inr ⟨?_, hzero⟩
      have hnonneg := h.regular.nonneg
      have hfresh := h.regular.fresh
      change s.page.level = 0
      cases hf : s.page.fresh with
      | true => exact hfresh hf
      | false =>
        simp only [Page.room, hf, false_eq_true, if_false] at hroom
        omega
    · exact .inl (by simp [learn, hzero])

theorem Idle.learn_withPage (h : s.Idle tags u) (hr : p.Regular) (hp : p.Known s.tags)
    (hroom : p.room = k + 1) : ((s.learn u k).withPage p).Idle tags u := by
  refine ⟨h.table, h.block, h.verbatims, h.loops, h.defining, ?_, hr, hp⟩
  rcases learn_unit (s := s) (u := u) (k := k) with hunit | rfl
  · exact .inl hunit
  · rcases h.unit with hunit | ⟨hunit, _⟩
    · exact .inl hunit
    · exact .inr ⟨hunit, by simp [hroom]⟩

end Session

theorem Reference.resolve_of_replaceEach {vars : Variables} {code r : Text} {ignored : List Text}
    (h : replaceEach vars (withoutIgnored (all code) ignored) code = .ok r)
    (hmark : r.has Call.expressionMark = false) : resolve vars code ignored = .ok r := by
  rw [resolve, h]
  change (if r.has Call.expressionMark then Call.computeExpressions r else .ok r) = _
  rw [hmark]
  rfl

namespace Compile
variable {handle : Handler} {tags : TagTable} {u tag e t : Text} {k : Nat} {s : Session}
  {m : Markup Text}

theorem depthOf_run {rest : Text} {c : Char} (hu : isUnit u) (hs : s.Reads u k)
    (hc : rest.head? = some c) (hb : isBlank c = false) :
    (depthOf (u.times k ++ rest)).runFrom s = (.ok k, s.learn u k) := by
  have hdepth : s.indentation.depth (u.times k ++ rest) = .ok (k, (s.learn u k).indentation) := by
    cases k with
    | zero => simpa [learn] using depth_zero hc hb
    | succ k =>
      have hpos : 0 < u.length := length_pos_of_ne_nil ((isUnit_iff u).mp hu).1
      rw [depth_succ (indents_of_isUnit hu) hc hb]
      rcases hs with hunit | ⟨hunit, hk⟩
      · simp only [hunit, learn, Nat.mul_div_cancel _ hpos, ite_self]
        rw [← hunit]
      · obtain rfl : k = 0 := by omega
        simp [hunit, learn]
  rw [depthOf, runFrom_bind_ok (runFrom_get s), hdepth]
  rfl

theorem depthOf_sourceLine (ht : Solid tag) (hu : isUnit u) (hs : s.Reads u k) :
    (depthOf (sourceLine u k tag e)).runFrom s = (.ok k, s.learn u k) := by
  obtain ⟨c, hc, hblank⟩ := ht.head
  exact depthOf_run hu hs (by rw [head?_append_of_ne_nil _ ht.ne_nil, hc]) hblank

theorem depthOf_learnt (ht : Solid tag) (hu : isUnit u) (hs : s.Reads u k) :
    (depthOf (sourceLine u k tag e)).runFrom (s.learn u k) = (.ok k, s.learn u k) := by
  rw [depthOf_sourceLine ht hu hs.learn, learn_learn]

theorem line_at {x space : Text} {d : Nat} {t : Session}
    (hdepth : (depthOf x).runFrom s = (.ok d, t)) (hblanks : (blanks d).runFrom t = (.ok space, t))
    (hb : t.block = none) (hn : t.verbatims.has (blockName x.trim) = false) (hne : x.trim ≠ [])
    (hh : x.trim.head? ≠ some '#') (hx : expand x = .ok x) :
    (line handle x).runFrom s = (plainLine handle d space x).runFrom t := by
  have hempty : x.trim.isEmpty = false := isEmpty_eq_false_iff.mpr hne
  have hhash : (x.trim.head? == some '#') = false := beq_eq_false_iff_ne.mpr hh
  simp [line, runFrom_bind, hdepth, hblanks, hb, hn, hempty, hhash, hx]

theorem line_unnamed (hu : isUnit u) (hs : s.Reads u k) (hb : s.block = none)
    (hn : s.verbatims.has (blockName tag) = false) (ht : Solid tag) (hh : tag.head? ≠ some '#')
    (he : LineEnd e) (hx : expand (sourceLine u k tag e) = .ok (sourceLine u k tag e)) :
    (line handle (sourceLine u k tag e)).runFrom s =
      (plainLine handle k (u.times k) (sourceLine u k tag e)).runFrom (s.learn u k) := by
  have htrim := ht.trim_sourceLine (k := k) hu he
  refine line_at (depthOf_sourceLine ht hu hs) (blanks_run learn_unit) hb ?_ ?_ ?_ hx
  · rw [htrim]
    exact hn
  · rw [htrim]
    exact ht.ne_nil
  · rw [htrim]
    exact hh

theorem line_eq_plainLine (hu : isUnit u) (hs : s.Reads u k) (hb : s.block = none)
    (hv : s.verbatims = []) (ht : Solid tag) (hh : tag.head? ≠ some '#') (he : LineEnd e)
    (hx : expand (sourceLine u k tag e) = .ok (sourceLine u k tag e)) :
    (line handle (sourceLine u k tag e)).runFrom s =
      (plainLine handle k (u.times k) (sourceLine u k tag e)).runFrom (s.learn u k) :=
  line_unnamed hu hs hb (by rw [hv]; rfl) ht hh he hx

/-! ## Markup -/

theorem declarationLine_calm (h : Calm tag) (hu : isUnit u) (he : LineEnd e) (depth : Nat) :
    (declarationLine handle depth (sourceLine u k tag e)).runFrom s = (.ok (some tag), s) := by
  have hpoint : tag.hasChar '.' = false := (hasChar_eq_false_iff _ _).mpr (h.not_mem (by simp))
  have hend : (sourceLine u k tag e == endMark) = false := beq_eq_false_iff_ne.mpr (h.ne_endMark hu)
  simp only [declarationLine, h.trim_sourceLine hu he, h.hasSign, h.isCompound_sourceLine hu he,
    h.isImport_sourceLine hu he, h.hasEngine_sourceLine hu he, hpoint, hend, false_eq_true,
    if_false, runFrom_pure]

theorem plainLine_calm (h : Calm tag) (hu : isUnit u) (he : LineEnd e)
    (hl : s.loops = []) (hd : s.defining = none) (depth : Nat) (space : Text) :
    (plainLine handle depth space (sourceLine u k tag e)).runFrom s =
      (markupLine handle depth space tag).runFrom s := by
  have hloops : s.loops.isEmpty := by simp [hl]
  have hdef := isDefining_eq_false hd
  simp only [plainLine, runFrom_bind, runFrom_get, h.trim_sourceLine hu he,
    h.declaresVerbatim, h.isLoopStart, hloops, hdef, h.isMethodStart_sourceLine hu he,
    declarationLine_calm h hu he, Bool.not_true, Bool.not_false, Bool.or_self, Bool.and_false,
    Bool.false_eq_true, if_false]

theorem allFrom_eq_nil (h : '$' ∉ t) (previous : Option Char) : Reference.allFrom previous t = [] := by
  induction t generalizing previous with
  | nil => rfl
  | cons c t ih =>
    have hc : (c == '$') = false := beq_eq_false_iff_ne.mpr fun e => h (e ▸ mem_cons_self)
    rw [Reference.allFrom, hc]
    exact ih (fun hm => h (.tail _ hm)) _

theorem hasExpressionMark_eq_false (h : '.' ∉ t) : t.has Call.expressionMark = false :=
  has_eq_false_of_not_mem (c := '.') (by decide) h

theorem arrayIndex_eq_self (h : t.has "][" = false) : ArrayIndex.resolve t = .ok t := by
  rw [ArrayIndex.resolve]
  cases t.length with
  | zero => rfl
  | succ n =>
    rw [ArrayIndex.resolveAll, h]
    rfl

theorem resolve_run {t : Text} (hd : '$' ∉ t) (hp : '.' ∉ t) (hb : '[' ∉ t) :
    (resolve t []).runFrom s = (.ok t, s) := by
  have href : Reference.resolve s.globals t [] = .ok t := by
    refine Reference.resolve_of_replaceEach ?_ (hasExpressionMark_eq_false hp)
    rw [Reference.all, allFrom_eq_nil hd]
    rfl
  have hpart : t.has "][" = false := has_eq_false_of_not_mem (c := '[') (by decide) hb
  have hindex := arrayIndex_eq_self hpart
  simp [resolve, runFrom_bind, href, hindex]

theorem line_calm (h : Calm tag) (hu : isUnit u) (he : LineEnd e) (hb : s.block = none)
    (hn : s.verbatims.has (blockName tag) = false) (hl : s.loops = []) (hd : s.defining = none) (hr : s.Reads u k) :
    (line handle (sourceLine u k tag e)).runFrom s =
      (markupLine handle k (u.times k) tag).runFrom (s.learn u k) := by
  rw [line_unnamed hu hr hb hn h.solid (h.head?_ne rfl (by decide)) he (h.expand_sourceLine hu he)]
  exact plainLine_calm (s := s.learn u k) h hu he hl hd k (u.times k)

theorem line_eq_markupLine (h : Calm tag) (hu : isUnit u) (he : LineEnd e)
    (hs : s.Idle tags u) (hr : s.Reads u k) : (line handle (sourceLine u k tag e)).runFrom s =
      (markupLine handle k (u.times k) tag).runFrom (s.learn u k) :=
  line_calm h hu he hs.block (by rw [hs.verbatims]; rfl) hs.loops hs.defining hr

variable {d : Definition}

theorem markupLine_definition (h : Names tag d) (space : Text) :
    (markupLine handle k space tag).runFrom s = (definitionLine handle k space d).runFrom s := by
  obtain ⟨c, hc, hletter | rfl⟩ := h.calm.head
  · have hquote : isQuote c = false := by
      simp only [isQuote, or_eq_false_iff, beq_eq_false_iff_ne]
      exact ⟨ne_of_class hletter (by decide), ne_of_class hletter (by decide)⟩
    simp only [markupLine, runFrom_bind,
      resolve_run h.dollar (h.calm.not_mem (c := '.') (by simp)) (h.calm.not_mem (c := '[') (by simp)),
      hc, hquote, false_eq_true, if_false, h.read, runFrom_liftM]
  · exact absurd hc h.quote

theorem markupLine_text (h : Spells tag (.text t)) (space : Text) :
    (markupLine handle k space tag).runFrom s = (writeLine k space (t ++ ['\n']) none none).runFrom s := by
  obtain ⟨hcalm, hdollar, rfl⟩ := h
  have hinner : Text.inner ('"' :: t ++ ['"']) = t := by simp [Text.inner]
  simp only [markupLine, runFrom_bind,
    resolve_run hdollar (hcalm.not_mem (c := '.') (by simp)) (hcalm.not_mem (c := '[') (by simp))]
  rw [hinner]
  rfl

theorem definitionLine_element (hfree : s.methods.get? d.name = none) (space : Text) :
    (definitionLine handle k space d).runFrom s = match checkElement s.tags d with
      | .ok _ => (writeLine k space d.tags.1 (some (space ++ d.tags.2)) (some d.name)).runFrom s
      | .error f => (.error f, s) := by
  simp only [definitionLine, runFrom_bind, runFrom_get, hfree, runFrom_liftM]
  cases checkElement s.tags d <;> rfl

theorem markupLine_put (handle : Handler) (h : Spells tag m)
    (hm : m.isPlain) (hu : Indents u) (hd : s.defining = none)
    (hk : (s.learn u k).KnowsUnit u k) (hp : s.page.Known s.tags)
    (hfree : ∀ name ∈ m.name?, s.methods.get? name = none) :
    Follows ((markupLine handle k (u.times k) tag).runFrom (s.learn u k)) (s.learn u k)
      (s.page.put s.tags u k m) := by
  have hwrite := writeLine_run (s := s.learn u k) hd hk hu hp hm
  cases m with
  | text t =>
    rw [markupLine_text h]
    exact hwrite
  | element name attributes colon =>
    have hd : Names tag (definition name attributes) := h
    rw [markupLine_definition hd, definitionLine_element (hfree name rfl)]
    change Follows _ _ (checkElement s.tags (definition name attributes) >>= _)
    cases hc : checkElement s.tags (definition name attributes) with
    | error f =>
      have hc' : checkElement (s.learn u k).tags (definition name attributes) = .error f := hc
      rw [hc']
      rfl
    | ok _ =>
      have hc' : checkElement (s.learn u k).tags (definition name attributes) = .ok () := hc
      rw [hc']
      exact hwrite

theorem line_markup (handle : Handler) (h : Spells tag m) (hm : m.isPlain)
    (hu : isUnit u) (he : LineEnd e) (hs : s.Idle tags u) (hr : s.Reads u k)
    (hfree : ∀ name ∈ m.name?, s.methods.get? name = none) :
    Follows ((line handle (sourceLine u k tag e)).runFrom s) (s.learn u k) (s.page.put tags u k m) := by
  have hput := markupLine_put handle h hm (indents_of_isUnit hu) hs.defining (hs.knowsUnit (k := k)) hs.known hfree
  rw [hs.table] at hput
  rw [line_eq_markupLine h.calm hu he hs hr]
  exact hput

theorem markupLine_named {m : Method} (h : Names tag d) (space : Text) (hm : s.methods.get? d.name = some m) :
    (markupLine handle k space tag).runFrom s = (do
      enter k (some none)
      runMethod handle m d.attributes space).runFrom s := by
  rw [markupLine_definition h]
  simp [definitionLine, runFrom_bind, hm]

end Compile

/-! ## Lists side by side -/

section
variable {α β γ : Type} {R : α → β → Prop} {as : List α} {bs : List β}

theorem forall₂_mem (h : Forall₂ R as bs) : Forall₂ (fun a b => a ∈ as ∧ b ∈ bs ∧ R a b) as bs := by
  rw [forall₂_iff_zip] at h ⊢
  exact ⟨h.1, fun hab => ⟨(of_mem_zip hab).1, (of_mem_zip hab).2, h.2 hab⟩⟩

theorem exists_of_forall₂ (h : Forall₂ R as bs) {b : β} (hb : b ∈ bs) : ∃ a ∈ as, R a b := by
  induction h with
  | nil => cases hb
  | cons hab _ ih =>
    rcases mem_cons.mp hb with rfl | hb
    · exact ⟨_, mem_cons_self, hab⟩
    · obtain ⟨a, ha, hr⟩ := ih hb
      exact ⟨a, .tail _ ha, hr⟩

theorem forall₂_join {S : α → γ → Prop} {cs : List γ} (hb : Forall₂ R as bs) (hc : Forall₂ S as cs) :
    Forall₂ (fun b c => ∃ a ∈ as, R a b ∧ S a c) bs cs := by
  induction hb generalizing cs with
  | nil =>
    cases hc
    exact .nil
  | cons hr _ ih =>
    cases hc with
    | cons hs hc =>
      refine .cons ⟨_, mem_cons_self, hr, hs⟩ ((ih hc).imp fun b c h => ?_)
      obtain ⟨a, ha, hrs⟩ := h
      exact ⟨a, .tail _ ha, hrs⟩

theorem forall₂_append_left {bs : List α} {cs : List β} (h : Forall₂ R (as ++ bs) cs) :
    ∃ xs ys, cs = xs ++ ys ∧ Forall₂ R as xs ∧ Forall₂ R bs ys := by
  refine ⟨cs.take as.length, cs.drop as.length, (take_append_drop _ _).symm, ?_, ?_⟩
  · simpa using forall₂_take as.length h
  · simpa using forall₂_drop as.length h

end

/-! ## Runs -/

/-- What a session knows of methods, loops, variables and template engines. -/
structure Store where
  methods : Table Method
  serials : Nat
  frames : List (Nat × Variables)
  globals : Variables
  loopCount : Nat
  dropMarks : Bool
  engines : Table Engine

def Session.store (s : Session) : Store :=
  ⟨s.methods, s.serials, s.frames, s.globals, s.loopCount, s.dropMarks, s.engines⟩

def Session.KeepsUnit (u : Text) (s s' : Session) : Prop :=
  s.indentation.unit = some u → s'.indentation.unit = some u

theorem Session.keepsUnit_learn {k : Nat} : s.KeepsUnit u (s.learn u k) := by
  intro h
  rcases learn_unit (s := s) (u := u) (k := k) with hunit | rfl
  · exact hunit
  · exact h

/-- An action ends in an idle session with the given page, or in the given fault. -/
def Ends (tags : TagTable) (u : Text) (inv : Store → Prop) (x : Compile Unit) (s : Session) :
    Except Fault Page → Prop
  | .ok p => ∃ s', x.runFrom s = (.ok (), s') ∧ s'.page = p ∧ s'.Idle tags u ∧ inv s'.store ∧
      s.KeepsUnit u s'
  | .error f => (x.runFrom s).1 = .error f

theorem Ends.of_run {inv' : Store → Prop} {y : Compile Unit}
    {s' : Session} {r : Except Fault Page} (h : Ends tags u inv' y s' r)
    (hrun : x.runFrom s = y.runFrom s') (hunit : s.KeepsUnit u s') (hinv : ∀ st, inv' st → inv st) :
    Ends tags u inv x s r := by
  cases r with
  | error f => exact (congrArg Prod.fst hrun).trans h
  | ok p =>
    obtain ⟨s'', hrun', hpage, hi, hs, hunit'⟩ := h
    exact ⟨s'', hrun.trans hrun', hpage, hi, hinv _ hs, hunit' ∘ hunit⟩

theorem Ends.of_ok {r : Except Fault Page} (h : Ends tags u inv x s r) (hr : r = .ok p) :
    ∃ s', x.runFrom s = (.ok (), s') ∧ s'.page = p ∧ s'.Idle tags u ∧ inv s'.store ∧ s.KeepsUnit u s' := by
  rwa [hr] at h

theorem Ends.bind {f : Unit → Compile Unit} {t r : Trace} (hx : Ends tags u inv x s (p.follow tags u t))
    (hf : ∀ s' : Session, p.follow tags u t = .ok s'.page → s'.Idle tags u → inv s'.store →
      s.KeepsUnit u s' → Ends tags u inv (f ()) s' (s'.page.follow tags u r)) :
    Ends tags u inv (x >>= f) s (p.follow tags u (t ++ r)) := by
  rw [Page.follow_append]
  cases hp : p.follow tags u t with
  | error e =>
    rw [hp] at hx
    exact runFrom_bind_fst_error hx
  | ok q =>
    rw [hp] at hx
    obtain ⟨s', hrun, rfl, hi, hs, hunit⟩ := hx
    exact (hf s' hp hi hs hunit).of_run (runFrom_bind_ok hrun) hunit fun _ h => h

/-- The depths of a trace can be read: the unit is known, or will be learnt one level deep. -/
def Session.Measures (u : Text) (t : Trace) (s : Session) : Prop :=
  s.indentation.unit = some u ∨ t.Climbs s.page.room

theorem Session.Measures.reads {k : Nat} {o : Option (Markup Text)} {t : Trace}
    (h : s.Measures u ((k, o) :: t)) (hi : s.Idle tags u) : s.Reads u k :=
  h.elim .inl fun hc => hi.reads hc.1

/-- In every idle session whose store satisfies an invariant, an action does to the page what a
trace does, and leaves such a session again. -/
def Does (tags : TagTable) (u : Text) (inv : Store → Prop) (x : Compile Unit) (t : Trace) : Prop :=
  ∀ s : Session, s.Idle tags u → inv s.store → s.Measures u t →
    Ends tags u inv x s (s.page.follow tags u t)

namespace Does
variable {tags : TagTable} {u e tag : Text} {inv : Store → Prop} {x y : Compile Unit} {t r : Trace}
  {handle : Handler} {k : Nat}

theorem of_ok (h : Does tags u inv x t) (hi : s.Idle tags u)
    (hs : inv s.store) (hc : t.Climbs s.page.room) (hp : s.page.follow tags u t = .ok p) :
    ∃ s', x.runFrom s = (.ok (), s') ∧ s'.page = p ∧ s'.Idle tags u ∧ inv s'.store ∧
      s.KeepsUnit u s' := (h s hi hs (.inr hc)).of_ok hp

theorem pure : Does tags u inv (pure ()) [] := fun s hi hs _ => ⟨s, rfl, rfl, hi, hs, id⟩

theorem bind (hx : Does tags u inv x t) (hy : Does tags u inv y r) :
    Does tags u inv (x >>= fun _ => y) (t ++ r) := by
  intro s hi hs hc
  rcases hc with hunit | hc
  · exact (hx s hi hs (.inl hunit)).bind fun s' _ hi' hs' hkeeps => hy s' hi' hs' (.inl (hkeeps hunit))
  · rw [Trace.climbs_append] at hc
    refine (hx s hi hs (.inr hc.1)).bind fun s' hp hi' hs' _ => hy s' hi' hs' (.inr ?_)
    rw [Page.follow_room hp]
    exact hc.2

theorem forM {α : Type} {as : List α} {f : α → Compile Unit} {ts : List Trace}
    (h : Forall₂ (fun a t => Does tags u inv (f a) t) as ts) : Does tags u inv (as.forM f) ts.flatten := by
  induction h with
  | nil => exact pure
  | cons ha _ ih => exact ha.bind ih

theorem of_run {inv' : Store → Prop} (hy : Does tags u inv' y t)
    (hrun : ∀ s : Session, s.Idle tags u → inv s.store → ∃ s', x.runFrom s = y.runFrom s' ∧
      s'.page = s.page ∧ s'.Idle tags u ∧ inv' s'.store ∧ s.KeepsUnit u s')
    (hinv : ∀ st, inv' st → inv st) : Does tags u inv x t := by
  intro s hi hs hc
  obtain ⟨s', hxy, hpage, hi', hs', hunit⟩ := hrun s hi hs
  have hdoes := hy s' hi' hs' (hc.imp hunit fun hc => by rwa [hpage])
  rw [hpage] at hdoes
  exact hdoes.of_run hxy hunit hinv

theorem of_follows {z : Nat × Option (Markup Text)}
    (hknown : ∀ {p q : Page}, p.Known tags → p.step tags u z = .ok q → q.Known tags)
    (h : ∀ s : Session, s.Idle tags u → inv s.store → s.Reads u z.1 →
      Follows (x.runFrom s) (s.learn u z.1) (s.page.step tags u z)) : Does tags u inv x [z] := by
  intro s hi hs hc
  have hrun := h s hi hs (hc.reads hi)
  rw [Page.follow]
  cases hp : s.page.step tags u z with
  | error f =>
    rw [hp] at hrun
    exact hrun
  | ok p =>
    rw [hp] at hrun
    obtain ⟨hregular, hroom⟩ := Page.step_ok hp
    have hk : p.Known s.tags := by
      have := hi.known
      rw [hi.table] at this ⊢
      exact hknown this hp
    exact ⟨_, hrun, rfl, hi.learn_withPage hregular hk hroom, hs, keepsUnit_learn⟩

theorem markup {m : Markup Text} (h : Spells tag m) (hm : m.isPlain) (hu : isUnit u) (he : LineEnd e)
    (hfree : ∀ st : Store, inv st → ∀ name ∈ m.name?, st.methods.get? name = none) :
    Does tags u inv (line handle (sourceLine u k tag e)) [(k, some m)] :=
  of_follows (fun hp hq => hp.put (indents_of_isUnit hu) hm hq) fun s hi hs hk =>
    line_markup handle h hm hu he hi hk (hfree s.store hs)

theorem call {d : Definition} {m : Method} (h : Names tag d) (hu : isUnit u)
    (he : LineEnd e) (hm : ∀ st : Store, inv st → st.methods.get? d.name = some m)
    (hrun : Does tags u inv (runMethod handle m d.attributes (u.times k)) t) :
    Does tags u inv (line handle (sourceLine u k tag e)) ((k, none) :: t) := by
  intro s hi hs hc
  have henter := enter_run (s := s.learn u k) hi.defining hi.knowsUnit (indents_of_isUnit hu)
    hi.known none
  have hline : (line handle (sourceLine u k tag e)).runFrom s = _ :=
    (line_eq_markupLine h.calm hu he hi (hc.reads hi)).trans (markupLine_named (s := s.learn u k) h _ (hm s.store hs))
  rw [Page.follow]
  change Ends tags u inv _ s (s.page.enter tags u k none >>= Page.follow tags u t)
  have htags : (s.learn u k).tags = tags := hi.table
  rw [htags, page_learn] at henter
  cases hp : s.page.enter tags u k none with
  | error f =>
    rw [hp] at henter
    change (runFrom _ _).1 = .error f
    rw [hline]
    exact runFrom_bind_fst_error henter
  | ok p =>
    rw [hp] at henter
    have hroom : p.room = k + 1 := (Page.step_ok (x := (k, none)) hp).2
    have hk : p.Known s.tags := hi.known.enter (by simp) (hi.table ▸ hp)
    have hidle := hi.learn_withPage (Page.step_ok (x := (k, none)) hp).1 hk hroom
    have hrest := hrun _ hidle hs (hc.imp (fun hunit => keepsUnit_learn hunit)
      fun hc => by rw [page_withPage, hroom]; exact hc.2)
    refine hrest.of_run (hline.trans (runFrom_bind_ok henter)) ?_ fun _ h => h
    exact keepsUnit_learn

end Does
end OutlineMarkup
