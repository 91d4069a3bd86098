import OutlineMarkup.Proofs.Substitution
import OutlineMarkup.Proofs.Vacancy

/-!
# Assignments to several variables

An assignment may name several variables, with a sign behind each of them. They take the text behind
the last sign one after another, and each reads it with the values that the ones before it have taken.
If one cannot take it, those before it keep what they have taken. All this is said of texts in which no
marked expression is to be computed.
-/

namespace OutlineMarkup
open List Text Action

namespace Assignment

/-- What stands before each of the signs, as it is written. -/
def targets (line : Text) : List Text := (line.split sign).dropLast

/-- What stands behind the last sign. -/
def source (line : Text) : Text := Text.trimLeft ((line.split sign).getLastD [])

/-- A text as it reads with some variables. -/
def reading (vars : Variables) (text : Text) : Except Fault Text := do
  ArrayIndex.resolve (← Reference.replaceEach vars (Reference.all text) text)

/-- With the values of the variables the text has an expression to be computed. -/
def isMarked (vars : Variables) (text : Text) : Bool :=
  (Reference.replaceEach vars (Reference.all text) text).toOption.any (·.has Call.expressionMark)

/-- At no target the text has an expression to be computed, when those before it have taken it. -/
def isUnmarked (text : Text) : Variables → List Text → Bool
  | _, [] => true
  | vars, t :: ts =>
    !isMarked vars text && (reading vars text).toOption.all fun v => isUnmarked text (vars.set t.trimRight v) ts

/-- Why a target cannot take a text, if it cannot. -/
def refusal? (vars : Variables) (text target : Text) : Option Fault :=
  match target.head? with
  | none => some .outOfRange
  | some c =>
    if c == '$' then
      match reading vars text with
      | .error f => some f
      | .ok _ => none
    else some (.rejected (.constantTarget target.trimRight))

def store (vars : Variables) (stored : List (Text × Text)) : Variables :=
  stored.foldl (fun vars p => vars.set p.1 p.2) vars

/-- The names take the text in turn: each value is how the text reads when those before it are stored. -/
def IsTaken (text : Text) (vars : Variables) : List (Text × Text) → Prop
  | [] => True
  | p :: rest => reading vars text = .ok p.2 ∧ IsTaken text (vars.set p.1 p.2) rest

variable {vars vars' : Variables} {text line name v : Text} {stored : List (Text × Text)}

/-! ## What is stored -/

theorem get?_store_of_not_mem (h : name ∉ stored.map Prod.fst) : (store vars stored).get? name = vars.get? name := by
  induction stored generalizing vars with
  | nil => rfl
  | cons p stored ih =>
    rw [map_cons, mem_cons, not_or] at h
    have hrest : (store (vars.set p.1 p.2) stored).get? name = (vars.set p.1 p.2).get? name := ih h.2
    exact hrest.trans (Table.get?_set_ne vars h.1 p.2)

theorem get?_store_of_mem (hv : ∀ p ∈ stored, p.2 = v) (h : name ∈ stored.map Prod.fst) :
    (store vars stored).get? name = some v := by
  induction stored generalizing vars with
  | nil => cases h
  | cons p stored ih =>
    by_cases hmem : name ∈ stored.map Prod.fst
    · exact ih (forall_mem_cons.mp hv).2 hmem
    · obtain rfl : name = p.1 := (mem_cons.mp h).resolve_right hmem
      have hrest : (store (vars.set p.1 p.2) stored).get? p.1 = (vars.set p.1 p.2).get? p.1 :=
        get?_store_of_not_mem hmem
      rw [← hv p mem_cons_self]
      exact hrest.trans (Table.get?_set_self vars p.1 p.2)

/-! ## How a text reads -/

theorem foldlM_congr {α β ε : Type} {f g : β → α → Except ε β} {names : List α}
    (h : ∀ name ∈ names, ∀ code, f code name = g code name) (code : β) :
    names.foldlM f code = names.foldlM g code := by
  induction names generalizing code with
  | nil => rfl
  | cons name names ih =>
    rw [foldlM_cons, foldlM_cons, h name mem_cons_self]
    exact bind_congr fun code' => ih (forall_mem_cons.mp h).2 code'

theorem reading_congr (h : ∀ name ∈ Reference.all text, vars.get? name = vars'.get? name) :
    reading vars text = reading vars' text := by
  rw [reading, reading]
  refine congrArg (· >>= _) (foldlM_congr (fun name hname code => ?_) text)
  rw [h name hname]

/-- If the text refers to none of the names but the last, all of them take the same value. -/
theorem IsTaken.eq_of_not_mem (h : IsTaken text vars stored)
    (hfree : ∀ name ∈ (stored.map Prod.fst).dropLast, name ∉ Reference.all text) :
    ∀ p ∈ stored, reading vars text = .ok p.2 := by
  induction stored generalizing vars with
  | nil => exact fun p hp => absurd hp not_mem_nil
  | cons p stored ih =>
    intro q hq
    rcases mem_cons.mp hq with rfl | hq
    · exact h.1
    · have hne : stored.map Prod.fst ≠ [] := ne_nil_of_mem (mem_map_of_mem hq)
      rw [map_cons, dropLast_cons_of_ne_nil hne, forall_mem_cons] at hfree
      have hsame : reading vars text = reading (vars.set p.1 p.2) text := by
        refine reading_congr fun name hname => (Table.get?_set_ne vars ?_ p.2).symm
        rintro rfl
        exact hfree.1 hname
      rw [hsame]
      exact ih h.2 hfree.2 q hq

end Assignment

namespace Compile
open Assignment
variable {s : Session} {text line : Text} {ts : List Text}

theorem resolve_eq_reading (h : isMarked s.globals text = false) :
    (resolve text []).runFrom s = (reading s.globals text, s) := by
  rw [isMarked] at h
  rw [resolve, reading, runFrom_bind_ok (runFrom_get s)]
  cases hread : Reference.replaceEach s.globals (Reference.all text) text with
  | error f =>
    rw [Reference.resolve, Reference.withoutIgnored, foldl_nil, hread]
    rfl
  | ok t =>
    rw [hread] at h
    rw [Reference.resolve_of_replaceEach hread h]
    change (liftM (ArrayIndex.resolve t) : Compile Text).runFrom s = (ArrayIndex.resolve t, s)
    exact runFrom_liftM _ s

theorem assignEach_refused {t : Text} {f : Fault} (hmark : isMarked s.globals text = false)
    (h : refusal? s.globals text t = some f) (ts : List Text) :
    (assignEach text (t :: ts)).runFrom s = (.error f, s) := by
  rw [refusal?] at h
  rw [assignEach]
  cases hhead : t.head? with
  | none =>
    rw [hhead] at h
    cases h
    rfl
  | some c =>
    simp only [hhead] at h ⊢
    split at h
    · rename_i hc
      rw [if_pos hc]
      cases hread : reading s.globals text with
      | ok v =>
        rw [hread] at h
        cases h
      | error e =>
        rw [hread] at h
        cases h
        have hresolve := resolve_eq_reading hmark
        rw [hread] at hresolve
        exact runFrom_bind_error hresolve
    · rename_i hc
      cases h
      rw [if_neg hc]
      rfl

theorem assignEach_taken {t : Text} (hmark : isMarked s.globals text = false)
    (h : refusal? s.globals text t = none) (ts : List Text) :
    ∃ v, reading s.globals text = .ok v ∧ (assignEach text (t :: ts)).runFrom s =
      (assignEach text ts).runFrom (s.withGlobals (s.globals.set t.trimRight v)) := by
  rw [refusal?] at h
  cases hhead : t.head? with
  | none =>
    rw [hhead] at h
    cases h
  | some c =>
    simp only [hhead] at h
    split at h
    · rename_i hc
      cases hread : reading s.globals text with
      | error e =>
        rw [hread] at h
        cases h
      | ok v =>
        have hresolve := resolve_eq_reading hmark
        rw [hread] at hresolve
        refine ⟨v, rfl, ?_⟩
        rw [assignEach]
        simp only [hhead, if_pos hc]
        rw [runFrom_bind_ok hresolve]
        rfl
    · cases h

/-- The targets up to the first that cannot take the text have taken it. -/
theorem assignEach_stores (hmark : isUnmarked text s.globals ts) :
    ∃ (r : Except Fault Unit) (stored : List (Text × Text)),
      (assignEach text ts).runFrom s = (r, s.withGlobals (store s.globals stored)) ∧
      IsTaken text s.globals stored ∧ (r = .ok () ∧ stored.map Prod.fst = ts.map trimRight ∨
        ∃ f earlier t later, r = .error f ∧ ts = earlier ++ t :: later ∧
          stored.map Prod.fst = earlier.map trimRight ∧ refusal? (store s.globals stored) text t = some f) := by
  induction ts generalizing s with
  | nil => exact ⟨.ok (), [], rfl, trivial, .inl ⟨rfl, rfl⟩⟩
  | cons t ts ih =>
    rw [isUnmarked, Bool.and_eq_true, Bool.not_eq_true'] at hmark
    obtain ⟨hmark, hlater⟩ := hmark
    cases hrefusal : refusal? s.globals text t with
    | some f =>
      exact ⟨.error f, [], assignEach_refused hmark hrefusal ts, trivial, .inr ⟨f, [], t, ts, rfl, rfl, rfl, hrefusal⟩⟩
    | none =>
      obtain ⟨v, hread, hstep⟩ := assignEach_taken hmark hrefusal ts
      rw [hread] at hlater
      obtain ⟨r, stored, hrun, htaken, hend⟩ := ih (s := s.withGlobals (s.globals.set t.trimRight v)) hlater
      refine ⟨r, (t.trimRight, v) :: stored, hstep.trans hrun, ⟨hread, htaken⟩, ?_⟩
      rcases hend with ⟨hok, hnames⟩ | ⟨f, earlier, t', later, hr, rfl, hnames, hlast⟩
      · exact .inl ⟨hok, by rw [map_cons, map_cons, hnames]⟩
      · exact .inr ⟨f, t :: earlier, t', later, hr, rfl, by rw [map_cons, map_cons, hnames], hlast⟩

theorem assign_eq (line : Text) (h : targets line ≠ []) : assign line = assignEach (source line) (targets line) := by
  have hmany : ¬ (line.split sign).length ≤ 1 := by
    have hpos := length_pos_of_ne_nil h
    rw [targets, length_dropLast] at hpos
    omega
  rw [assign]
  simp only [if_neg hmany]
  rfl

theorem assign_eq_throw (line : Text) (h : targets line = []) :
    (assign line).runFrom s = (.error (.rejected (.noAssignment ((line.split sign).headD []).trim)), s) := by
  have hone : (line.split sign).length ≤ 1 := by
    have hzero : (targets line).length = 0 := by rw [h]; rfl
    rw [targets, length_dropLast] at hzero
    omega
  rw [assign]
  simp only [if_pos hone]
  rfl

/-- An assignment in which nothing marked is computed goes from target to target. Each takes the text as it reads when the targets before it
have taken it, until one cannot; so what is stored are the targets up to there, all other variables are as
they were, and if there is at most one target a fault changes nothing. The values are the same if the text
refers to no target but the last. -/
theorem assign_stores (s : Session) (line : Text)
    (hmark : isUnmarked (source line) s.globals (targets line) = true) :
    ∃ (r : Except Fault Unit) (stored : List (Text × Text)),
      (assign line).runFrom s = (r, s.withGlobals (store s.globals stored)) ∧
      IsTaken (source line) s.globals stored ∧
      (r = .ok () → targets line ≠ [] ∧ stored.map Prod.fst = (targets line).map trimRight) ∧
      (∀ f, r = .error f → targets line = [] ∧ stored = [] ∨
        ∃ earlier t later, targets line = earlier ++ t :: later ∧ stored.map Prod.fst = earlier.map trimRight ∧
          refusal? (store s.globals stored) (source line) t = some f) ∧
      (∀ f, r = .error f → (targets line).length ≤ 1 → (assign line).runFrom s = (r, s)) ∧
      (∀ name ∉ stored.map Prod.fst, (store s.globals stored).get? name = s.globals.get? name) ∧
      ((∀ t ∈ (targets line).dropLast, t.trimRight ∉ Reference.all (source line)) →
        ∃ v, ∀ name ∈ stored.map Prod.fst, (store s.globals stored).get? name = some v) := by
  by_cases hnone : targets line = []
  · refine ⟨_, [], assign_eq_throw line hnone, trivial, ?_, ?_, ?_, ?_, ?_⟩
    · exact fun h => nomatch h
    · exact fun _ _ => .inl ⟨hnone, rfl⟩
    · exact fun _ _ _ => assign_eq_throw line hnone
    · exact fun _ _ => rfl
    · exact fun _ => ⟨[], fun _ h => absurd h not_mem_nil⟩
  obtain ⟨r, stored, hrun, htaken, hend⟩ := assignEach_stores hmark
  rw [← assign_eq line hnone] at hrun
  have hnames : stored.map Prod.fst <+: (targets line).map trimRight := by
    rcases hend with ⟨_, hnames⟩ | ⟨f, earlier, t, later, _, hcut, hnames, _⟩
    · rw [hnames]
    · rw [hnames, hcut, map_append]
      exact prefix_append _ _
  refine ⟨r, stored, hrun, htaken, ?_, ?_, ?_, fun _ => get?_store_of_not_mem, ?_⟩
  · rintro rfl
    rcases hend with ⟨_, hnames⟩ | ⟨f, _, _, _, hr, _⟩
    · exact ⟨hnone, hnames⟩
    · cases hr
  · rintro f rfl
    rcases hend with ⟨hr, _⟩ | ⟨f', earlier, t, later, hr, hcut, hnames, hlast⟩
    · cases hr
    · cases hr
      exact .inr ⟨earlier, t, later, hcut, hnames, hlast⟩
  · rintro f rfl hone
    rcases hend with ⟨hr, _⟩ | ⟨f', earlier, t, later, hr, hcut, hnames, _⟩
    · cases hr
    · -- The only target is the one that fails.
      have hearlier : earlier = [] := by
        rw [hcut, length_append, length_cons] at hone
        exact eq_nil_of_length_eq_zero (by omega)
      rw [hearlier, map_nil, map_eq_nil_iff] at hnames
      rw [hrun, hnames]
      rfl
  · intro hfree
    have hfree' : ∀ name ∈ (stored.map Prod.fst).dropLast, name ∉ Reference.all (source line) := by
      intro name hname
      have hmem : name ∈ ((targets line).dropLast).map trimRight := by
        obtain ⟨rest, hrest⟩ := hnames
        rw [map_dropLast, ← hrest, dropLast_append]
        split
        · exact hname
        · exact mem_append_left _ (mem_of_mem_dropLast hname)
      obtain ⟨t, ht, rfl⟩ := mem_map.mp hmem
      exact hfree t ht
    have hvalues := htaken.eq_of_not_mem hfree'
    cases stored with
    | nil => exact ⟨[], fun _ h => absurd h not_mem_nil⟩
    | cons p stored =>
      refine ⟨p.2, fun name hname => get?_store_of_mem (fun q hq => ?_) hname⟩
      have hp := hvalues p mem_cons_self
      rw [hvalues q hq] at hp
      exact Except.ok.inj hp

/-- A variable that no target of the assignments below is. -/
def sharingSession : Session := { tags := [], globals := [("$c", "7")] }

/-- Both targets take the item of an array that the text gives. -/
theorem assign_stores_shared :
    ∃ v, ∀ name ∈ ["$a".toList, "$b".toList],
      ((assign "$a:=$b:=[$c, 5][0]\n".toList).runFrom sharingSession).2.globals.get? name = some v := by
  have hdone : ((assign "$a:=$b:=[$c, 5][0]\n".toList).runFrom sharingSession).1 = .ok () := by decide +kernel
  obtain ⟨r, stored, hrun, _, hok, _, _, _, hsame⟩ := assign_stores sharingSession "$a:=$b:=[$c, 5][0]\n".toList
    (by decide +kernel)
  rw [hrun] at hdone ⊢
  have hnames : stored.map Prod.fst = ["$a".toList, "$b".toList] := (hok hdone).2.trans (by decide)
  rw [hnames] at hsame
  exact hsame (by decide)

/-- The first target keeps its value though the second is no variable, and the values differ if the text
refers to the first target. -/
theorem assign_chain_not_whole :
    ((assign "$a:=b:=3").runFrom sharingSession).1 = .error (.rejected (.constantTarget "b")) ∧
    ((assign "$a:=b:=3").runFrom sharingSession).2.globals =
      sharingSession.globals ++ [("$a".toList, "3".toList)] ∧
    ((assign "$c:=$d:=$c x").runFrom sharingSession).1 = .ok () ∧
    ((assign "$c:=$d:=$c x").runFrom sharingSession).2.globals =
      [("$c".toList, "7 x".toList), ("$d".toList, "7 x x".toList)] := by
  decide +kernel

end Compile
end OutlineMarkup
