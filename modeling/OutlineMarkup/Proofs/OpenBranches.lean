import OutlineMarkup.Proofs.EngineLines

/-!
# Branches of open calls

A call of a template engine is placed among the open calls by its level, and its branches belong to it
as long as it stands innermost. A call that is one level deeper than the innermost one is not placed, so
only calls at level zero ever stand open: what is called at level one has no branches, and deeper calls
are turned down.
-/

namespace OutlineMarkup
open List Text Action

/-! ## Formats -/

namespace Expression

/-- Every percent sign starts a `%s`. -/
def onlyPlaces : Text → Bool
  | [] => true
  | '%' :: 's' :: t => onlyPlaces t
  | c :: t => c != '%' && onlyPlaces t

theorem occurrences_place (t : Text) : occurrences ('%' :: 's' :: t) "%s" = occurrences t "%s" + 1 := by
  have hpos := length_pos_of_ne_nil (splitFrom_ne_nil "%s" 0 t)
  change (splitFrom _ 0 t).length + 1 - 1 = (splitFrom _ 0 t).length - 1 + 1
  omega

theorem occurrences_cons {c : Char} (hc : c ≠ '%') (t : Text) :
    occurrences (c :: t) "%s" = occurrences t "%s" := by
  have hother : isPrefixOf "%s" (c :: t) = false := by simp [isPrefixOf, hc.symm]
  obtain ⟨p, ps, hps⟩ := exists_cons_of_ne_nil (splitFrom_ne_nil "%s" 0 t)
  rw [occurrences, occurrences, split, split, splitFrom, hother, hps]
  rfl

theorem format_ok {t : Text} {values : List Text} (h : onlyPlaces t)
    (hlength : values.length = occurrences t "%s") : ∃ r, format t (values.map .text) = .ok r := by
  rw [format]
  fun_induction onlyPlaces t generalizing values with
  | case1 =>
    obtain rfl : values = [] := eq_nil_of_length_eq_zero hlength
    exact ⟨[], rfl⟩
  | case2 t ih =>
    rw [occurrences_place] at hlength
    obtain ⟨v, values, rfl⟩ := exists_cons_of_length_eq_add_one hlength
    obtain ⟨r, hr⟩ := ih h (Nat.succ.inj hlength)
    exact ⟨v ++ r, by rw [map_cons, formatFrom_place, hr]; rfl⟩
  | case3 c t _ ih =>
    simp only [Bool.and_eq_true, bne_iff_ne] at h
    rw [occurrences_cons h.1] at hlength
    obtain ⟨r, hr⟩ := ih h.2 hlength
    have hplain : '%' ∉ [c] := fun hm => h.1 (mem_singleton.mp hm).symm
    exact ⟨c :: r, by rw [← singleton_append, formatFrom_append hplain, hr]; rfl⟩

end Expression

/-! ## Engines and calls -/

structure EngineCall where
  name : Text
  args : List Text
  level : Nat
  deriving Repr, DecidableEq

namespace Engine

/-- An engine as it is before its first call: a format, then methods and branches. -/
inductive Declared : Engine → Prop
  | ofFormat (format : Text) : Declared (ofFormat format)
  | addMethod {e : Engine} (he : Declared e) (name opening : Text) (closing : Option Text) :
      Declared (e.addMethod name opening closing)
  | addBranch {e e' : Engine} (he : Declared e) {owner branch : Text} (h : e.addBranch owner branch = .ok e') :
      Declared e'

def branches (e : Engine) (name : Text) : List Text := ((e.methods.get? name).map (·.branches)).getD []

/-- The method exists, its text has no directives but `%s`, and there are as many arguments. -/
def Accepts (e : Engine) (c : EngineCall) : Prop :=
  ∃ m, e.methods.get? c.name = some m ∧ Expression.onlyPlaces m.opening = true ∧ c.args.length = m.arity

def callOne (c : EngineCall) : Action Engine Text := call c.name c.args (some c.level)

/-- The format takes any text. -/
def Writes (e : Engine) : Prop := ∀ contents, ∃ t, e.tag contents = .ok t

/-- The calls are made one after the other, the first in the state `e₁`. Each of them succeeds, and unless
it is a branch of the innermost open call, the branches of the engine are then those attached to its
method. -/
def Attaches (e : Engine) : (e₁ : Engine) → List EngineCall → Prop
  | _, [] => True
  | e₁, c :: calls => ∃ t e₂, (callOne c).runFrom e₁ = (.ok t, e₂) ∧
      (e₁.isBranch c.name (some c.level) = .ok false →
        ∀ s, e₂.isBranch s (some c.level) = .ok (decide (s ∈ e.branches c.name))) ∧
      Attaches e e₂ calls

variable {e e₁ e₂ : Engine} {m : EngineMethod} {name top : Text} {c : EngineCall} {calls : List EngineCall}

/-- Before the first call nothing is open, and every method takes as many arguments as its text has
places. -/
theorem Declared.spec (h : Declared e) : e.openCalls = [] ∧
    ∀ {name m}, e.methods.get? name = some m → m.arity = m.opening.occurrences "%s" := by
  induction h with
  | ofFormat format => exact ⟨rfl, fun hm => by cases hm⟩
  | addMethod _ added opening closing ih =>
    refine ⟨ih.1, fun {name m} hm => ?_⟩
    rw [Engine.addMethod] at hm
    by_cases hname : name = added
    · rw [hname, Table.get?_set_self] at hm
      cases hm
      rfl
    · rw [Table.get?_set_ne _ hname] at hm
      exact ih.2 hm
  | @addBranch e e' _ owner branch h ih =>
    rw [Engine.addBranch] at h
    split at h
    · rename_i m₀ hm₀
      cases h
      refine ⟨ih.1, fun {name m} hm => ?_⟩
      by_cases hname : name = owner
      · rw [hname, Table.get?_set_self] at hm
        cases hm
        exact ih.2 (m := m₀) hm₀
      · rw [Table.get?_set_ne _ hname] at hm
        exact ih.2 hm
    · cases h

/-! ## One call -/

/-- The engine with the innermost call that is open, which was made at level zero. -/
def opened (e : Engine) (top : Text) : Engine := { e with openCalls := [(top, some 0)] }

section Placing
variable (hm : e.methods.get? top = some m)
include hm

theorem isBranch_opened (name : Text) (level : Nat) :
    (e.opened top).isBranch name (some level) = .ok (m.branches.contains name && level == 0) := by
  have hmethod : (e.opened top).method top = .ok m := by simp only [method, opened, hm]
  change (do return (← (e.opened top).method top).branches.contains name && some (level : Int) == some 0) = _
  rw [hmethod]
  change Except.ok (m.branches.contains name && some (level : Int) == some 0) = _
  congr 2
  rw [Bool.eq_iff_iff]
  simp

/-- A branch stays in its call, another call at level zero takes the place of the open one, and a deeper
call is not placed. -/
theorem placeCall_opened (name : Text) (level : Nat) : (placeCall name (some level)).runFrom (e.opened top) =
    if level = 0 then (.ok (), e.opened (if m.branches.contains name then top else name))
    else (if level = 1 then .ok () else .error (.rejected .indentation), e.opened top) := by
  have hrise : (liftM (rise (some (level : Int)) (some 0)) : Action Engine Int).runFrom (e.opened top) =
      (.ok (level : Int), e.opened top) := by
    rw [runFrom_liftM, rise, Int.sub_zero]
  have hbranch : (liftM ((e.opened top).isBranch name (some level)) : Action Engine Bool).runFrom (e.opened top) =
      (.ok (m.branches.contains name && level == 0), e.opened top) := by
    rw [runFrom_liftM, isBranch_opened hm]
  rw [placeCall, runFrom_bind_ok (runFrom_get _)]
  change ((liftM (rise (some (level : Int)) (some 0)) : Action Engine Int) >>= _).runFrom _ = _
  rw [runFrom_bind_ok hrise, runFrom_bind_ok hbranch]
  rcases level with _ | _ | level
  · cases m.branches.contains name <;> rfl
  · cases m.branches.contains name <;> rfl
  · have hdeep : ¬ ((level + 2 : Nat) : Int) < 1 := by omega
    have hdeeper : ((level + 2 : Nat) : Int) > 1 := by omega
    have hnone : (m.branches.contains name && level + 2 == 0) = false := by simp
    rw [hnone]
    simp only [Bool.false_eq_true, if_false, if_neg hdeep, if_pos hdeeper]
    rfl

theorem isBranch_top (name : Text) :
    (e.opened top).isBranch name (some (0 : Nat)) = .ok (decide (name ∈ e.branches top)) := by
  rw [isBranch_opened hm, branches, hm]
  simp

end Placing

theorem callOne_eq (hm : e.methods.get? c.name = some m) (hargs : c.args.length = m.arity) :
    (callOne c).runFrom e = (do
      placeCall c.name (some c.level)
      let contents ← Expression.format m.opening (c.args.map .text)
      (← get).tag contents : Action Engine Text).runFrom e := by
  have hmethod : (liftM (e.method c.name) : Action Engine EngineMethod).runFrom e = (.ok m, e) := by
    simp only [runFrom_liftM, method, hm]
  rw [callOne, call, runFrom_bind_ok (runFrom_get _), runFrom_bind_ok hmethod]
  simp only [hargs, ne_eq, not_true_eq_false, if_false]

/-! ## Sequences of calls -/

theorem attaches_cons_ok {t : Text} (h : (callOne c).runFrom e₁ = (.ok t, e₂)) :
    e.Attaches e₁ (c :: calls) ↔ (e₁.isBranch c.name (some c.level) = .ok false →
      ∀ s, e₂.isBranch s (some c.level) = .ok (decide (s ∈ e.branches c.name))) ∧ e.Attaches e₂ calls := by
  constructor
  · rintro ⟨t', e₃, hrun, hattached⟩
    obtain ⟨-, rfl⟩ := Prod.mk.inj (h.symm.trans hrun)
    exact hattached
  · exact fun hattached => ⟨t, e₂, h, hattached⟩

section Calls
variable (he : Declared e) (hwrites : e.Writes)
include he hwrites

theorem callOne_ok (hc : e.Accepts c) (hplace : (placeCall c.name (some c.level)).runFrom e₁ = (.ok (), e₂))
    (hmethods : e₁.methods = e.methods) (hformat : e₂.format = e.format) : ∃ t, (callOne c).runFrom e₁ = (.ok t, e₂) := by
  obtain ⟨m, hm, honly, hargs⟩ := hc
  obtain ⟨contents, hcontents⟩ := Expression.format_ok honly (hargs.trans (he.spec.2 hm))
  obtain ⟨t, ht⟩ := hwrites contents
  rw [tag, ← hformat] at ht
  rw [← hmethods] at hm
  refine ⟨t, ?_⟩
  rw [callOne_eq hm hargs, runFrom_bind_ok hplace, hcontents]
  change (liftM (e₂.tag contents) : Action Engine Text).runFrom _ = _
  rw [runFrom_liftM, tag, ht]

theorem attaches_opened (hm : e.methods.get? top = some m) (hcalls : ∀ c ∈ calls, e.Accepts c) :
    e.Attaches (e.opened top) calls ↔ ∀ c ∈ calls, c.level = 0 ∨ c.level = 1 ∧ e.branches c.name = [] := by
  induction calls generalizing top m with
  | nil => exact iff_of_true trivial fun _ hc => absurd hc not_mem_nil
  | cons c calls ih =>
    obtain ⟨hc, hcalls⟩ := forall_mem_cons.mp hcalls
    obtain ⟨m', hm', _, hargs⟩ := id hc
    have hplace := placeCall_opened hm c.name c.level
    rw [forall_mem_cons]
    by_cases hzero : c.level = 0
    · rw [if_pos hzero] at hplace
      obtain ⟨t, ht⟩ := callOne_ok he hwrites hc hplace rfl rfl
      rw [attaches_cons_ok ht, hzero, isBranch_opened hm, beq_self_eq_true, Bool.and_true]
      cases m.branches.contains c.name with
      | true => exact and_congr (iff_of_true (fun h => by cases h) (.inl rfl)) (ih hm hcalls)
      | false => exact and_congr (iff_of_true (fun _ => isBranch_top hm') (.inl rfl)) (ih hm' hcalls)
    rw [if_neg hzero] at hplace
    by_cases hone : c.level = 1
    · rw [if_pos hone] at hplace
      obtain ⟨t, ht⟩ := callOne_ok he hwrites hc hplace rfl rfl
      have hopen : ∀ s, (e.opened top).isBranch s (some c.level) = .ok false := fun s => by
        rw [isBranch_opened hm, hone]
        simp
      rw [attaches_cons_ok ht, ih hm hcalls]
      refine and_congr_left fun _ => ⟨fun h => .inr ⟨hone, eq_nil_iff_forall_not_mem.mpr fun s hs => ?_⟩,
        fun h _ s => ?_⟩
      · have htrue := (h (hopen _) s).symm.trans (hopen s)
        rw [decide_eq_true hs] at htrue
        cases htrue
      · rw [hopen, (h.resolve_left hzero).2]
        rfl
    · rw [if_neg hone] at hplace
      refine iff_of_false ?_ fun h => h.1.elim hzero fun h => hone h.1
      rintro ⟨t, e₂, hrun, -⟩
      rw [callOne_eq (e := e.opened top) hm' hargs, runFrom_bind_error hplace] at hrun
      cases hrun

end Calls

/-- Calls from level zero on attach their branches just when they are made at level zero, or at level one
where the method has no branches. -/
theorem attaches_iff (he : Declared e) (hwrites : e.Writes) (hcalls : ∀ c ∈ calls, e.Accepts c)
    (hfirst : ∀ c ∈ calls.head?, c.level = 0) :
    e.Attaches e calls ↔ ∀ c ∈ calls, c.level = 0 ∨ c.level = 1 ∧ e.branches c.name = [] := by
  cases calls with
  | nil => exact iff_of_true trivial fun _ hc => absurd hc not_mem_nil
  | cons c calls =>
    obtain ⟨hc, hcalls⟩ := forall_mem_cons.mp hcalls
    obtain ⟨m, hm, _⟩ := id hc
    have hzero := hfirst c rfl
    have hplace : (placeCall c.name (some c.level)).runFrom e = (.ok (), e.opened c.name) := by
      rw [placeCall, runFrom_bind_ok (runFrom_get _), he.spec.1, hzero]
      rfl
    obtain ⟨t, ht⟩ := callOne_ok he hwrites hc hplace rfl rfl
    rw [attaches_cons_ok ht, forall_mem_cons, hzero]
    exact and_congr (iff_of_true (fun _ => isBranch_top hm) (.inl rfl)) (attaches_opened he hwrites hm hcalls)

def conditionals : Engine :=
  { format := "\x7b%s\x7d\n"
    methods := [("if", ⟨"if %s", 1, some "endif", ["else"]⟩), ("else", ⟨"else", 0, none, []⟩)] }

theorem attaches_iff_conditionals :
    conditionals.Attaches conditionals [⟨"if", ["x"], 0⟩, ⟨"else", [], 0⟩, ⟨"else", [], 1⟩, ⟨"if", ["y"], 0⟩] := by
  have hdeclared : Declared conditionals :=
    @Declared.addBranch _ _ (((Declared.ofFormat "\x7b%s\x7d").addMethod "if" "if %s" (some "endif")).addMethod
      "else" "else" none) "if" "else" (by rfl)
  have hwrites : conditionals.Writes := fun contents =>
    @Expression.format_ok conditionals.format [contents] (by decide) (by rfl)
  have hif : ∀ x level, conditionals.Accepts ⟨"if", [x], level⟩ := fun _ _ => ⟨_, rfl, rfl, rfl⟩
  have helse : ∀ level, conditionals.Accepts ⟨"else", [], level⟩ := fun _ => ⟨_, rfl, rfl, rfl⟩
  refine (attaches_iff hdeclared hwrites ?_ (by simp)).mpr (by decide)
  simp only [forall_mem_cons, hif, helse, true_and]
  exact fun _ h => absurd h not_mem_nil

/-- A call one level below the innermost one has no branches, and the next level is turned down. -/
theorem attaches_not_nested :
    let run := fun calls : List EngineCall => (calls.forM fun c => discard (callOne c)).runFrom conditionals
    "else".toList ∈ conditionals.branches "if" ∧ (run [⟨"if", ["x"], 0⟩, ⟨"if", ["y"], 1⟩]).1 = .ok () ∧
      (run [⟨"if", ["x"], 0⟩, ⟨"if", ["y"], 1⟩]).2.isBranch "else" (some 1) = .ok false ∧
      (run [⟨"if", ["x"], 0⟩, ⟨"if", ["y"], 1⟩, ⟨"if", ["z"], 2⟩]).1 = .error (.rejected .indentation) := by
  decide +kernel

end Engine
end OutlineMarkup
