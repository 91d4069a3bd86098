import OutlineMarkup.Proofs.Repetitions

/-!
# Suites

A suite is a program whose methods may hold loops. While it is read, each loop is kept as calls of its
own, and the line that ends it loses a level. So a suite compiles like the program in which the
copies of the bodies stand in place of the loops, each followed by the line that ends it, one level
nearer to the left edge than it is written.
-/

namespace OutlineMarkup
open List Compile Action Template Program
variable {tags : TagTable} {u : Text}

/-- A line of a method, or a loop among its lines with the line that ends it. -/
inductive Clause where
  | line (depth : Nat) (i : Item Template)
  | loop (l : Repetition) (depth : Nat) (i : Item Template)
  deriving Repr, DecidableEq

namespace Clause

def lines (u : Text) : Clause → List Text
  | line k i => [u.times k ++ (i.map Template.source).written]
  | loop l k i => l.passage.lines u ++ [u.times k ++ (i.map Template.source).written]

def unrolled : Clause → List (Nat × Item Template)
  | line k i => [(k, i)]
  | loop l k i => l.copies ++ [(k, i)]

/-- What the lines come to: the line that ends a loop has lost a level. -/
def settled : Clause → List (Nat × Item Template)
  | line k i => [(k, i)]
  | loop l k i => l.copies ++ [(k - 1, i)]

def loops : Clause → List Repetition
  | line _ _ => []
  | loop l _ _ => [l]

/-- The line that ends a loop is not nested in it, and would not end the method. -/
def IsSound : Clause → Prop
  | line _ _ => True
  | loop l k _ => l.IsSound ∧ 2 ≤ k ∧ k ≤ l.depth

instance : DecidablePred IsSound
  | line _ _ => inferInstanceAs (Decidable True)
  | loop l k _ => inferInstanceAs (Decidable (l.IsSound ∧ 2 ≤ k ∧ k ≤ l.depth))

end Clause

structure Sketch where
  name : Text
  parameters : Option (List Text)
  colon : Bool
  clauses : List Clause
  deriving Repr, DecidableEq

namespace Sketch

def procedure (f : Clause → List (Nat × Item Template)) (d : Sketch) : Procedure :=
  ⟨d.name, d.parameters, d.colon, d.clauses.flatMap f⟩

def header (d : Sketch) : Text := (d.procedure Clause.settled).header

def lines (u : Text) (d : Sketch) : List Text := d.header :: d.clauses.flatMap (Clause.lines u)

def loops (d : Sketch) : List Repetition := d.clauses.flatMap Clause.loops

end Sketch

open Sketch (procedure loops)

structure Suite where
  methods : List Sketch
  main : List (Nat × Item Text)
  deriving Repr, DecidableEq

namespace Suite

def program (f : Clause → List (Nat × Item Template)) (S : Suite) : Program :=
  ⟨S.methods.map (Sketch.procedure f), S.main⟩

def lines (u : Text) (S : Suite) : List Text :=
  S.methods.flatMap (Sketch.lines u) ++ S.main.map fun (k, i) => u.times k ++ i.written

def loops (S : Suite) : List Repetition := S.methods.flatMap Sketch.loops

/-- The lines of the methods make sense, with the loops and when they have been unrolled. -/
structure IsSound (tags : TagTable) (u : Text) (S : Suite) : Prop where
  settled : (S.program Clause.settled).IsWellFormed tags u
  clauses : ∀ d ∈ S.methods, ∀ c ∈ d.clauses, c.IsSound

end Suite

/-! ## Keeping the routines in step -/

namespace Program
variable {ps : List Procedure} {p : Procedure} {main : Items} {a : Text}

theorem find?_concat_self (hfresh : p.name ∉ ps.map (·.name)) : find? ⟨ps ++ [p], main⟩ p.name = some p := by
  have hnone : ps.find? (·.name == p.name) = none := by
    rw [find?_eq_none]
    intro q hq heq
    exact hfresh (mem_map.mpr ⟨q, hq, beq_iff_eq.mp heq⟩)
  simp [find?, find?_append, hnone]

theorem find?_concat_ne (ha : a ≠ p.name) : find? ⟨ps ++ [p], main⟩ a = find? ⟨ps, main⟩ a := by
  have hne : (p.name == a) = false := beq_false_of_ne (Ne.symm ha)
  simp [find?, find?_append, hne]

end Program

def Procedure.extend (p : Procedure) (b : List (Nat × Item Template)) : Procedure :=
  { p with body := p.body ++ b }

open Procedure (extend)

namespace Routines.Carries
variable {ls : List Repetition} {T T' : Program} {R : Routines} {t : Procedure}
  {c : Body}

theorem update (hR : R.Carries ls T) (ht : T'.find? t.name = some t)
    (hothers : ∀ a, a ≠ t.name → T'.find? a = T.find? a) (hname : ∀ n, t.name ≠ loopName n)
    (hbody : Unfolds ls c t.body) : (R.set t.name ⟨t.names, true, c⟩).Carries ls T' := by
  refine ⟨fun {n l} hl => ?_, fun {a t'} ha => ?_, fun {a r} hr => ?_⟩
  · rw [set_ne (Ne.symm (hname n))]
    exact hR.loop hl
  · by_cases heq : a = t.name
    · subst heq
      obtain rfl : t = t' := Option.some.inj (ht.symm.trans ha)
      exact ⟨c, set_self _ _, hbody⟩
    · rw [hothers a heq] at ha
      obtain ⟨b, hb, hunfolds⟩ := hR.method ha
      exact ⟨b, by rw [set_ne heq, hb], hunfolds⟩
  · by_cases heq : a = t.name
    · subst heq
      rw [set_self] at hr
      cases hr
      exact .inr ⟨t, c, ht, rfl, hbody⟩
    · rw [set_ne heq] at hr
      rcases hR.only hr with hloop | ⟨t', b, ht', hrest⟩
      · exact .inl hloop
      · exact .inr ⟨t', b, by rw [hothers a heq, ht'], hrest⟩

theorem addLoop (hR : R.Carries ls T) (l : Repetition)
    (hnames : ∀ a t, T.find? a = some t → ∀ n, a ≠ loopName n) :
    (R.set (loopName ls.length) l.routine).Carries (ls ++ [l]) T := by
  refine ⟨fun {n l'} hl => ?_, fun {a t} ha => ?_, fun {a r} hr => ?_⟩
  · by_cases hn : n = ls.length
    · subst hn
      rw [getElem?_concat_length] at hl
      cases hl
      exact set_self _ _
    · have hlt : n < ls.length := by
        have hlength := (List.getElem?_eq_some_iff.mp hl).1
        rw [length_append, length_singleton] at hlength
        omega
      rw [getElem?_append_left hlt] at hl
      rw [set_ne fun heq => hn (loopName_injective heq)]
      exact hR.loop hl
  · obtain ⟨b, hb, hunfolds⟩ := hR.method ha
    exact ⟨b, by rw [set_ne (hnames a t ha _), hb], hunfolds.mono [l]⟩
  · by_cases heq : a = loopName ls.length
    · rw [heq, set_self] at hr
      cases hr
      exact .inl ⟨ls.length, l, getElem?_concat_length, heq, rfl⟩
    · rw [set_ne heq] at hr
      rcases hR.only hr with ⟨n, l', hl, ha, hrout⟩ | ⟨t, b, ht, hrout, hunfolds⟩
      · refine .inl ⟨n, l', ?_, ha, hrout⟩
        rw [getElem?_append_left (List.getElem?_eq_some_iff.mp hl).1]
        exact hl
      · exact .inr ⟨t, b, ht, hrout, hunfolds.mono [l]⟩

theorem extend {ps : List Procedure} {main : Items}
    (hR : R.Carries ls ⟨ps ++ [t], main⟩) (hfresh : t.name ∉ ps.map (·.name))
    (hname : ∀ n, t.name ≠ loopName n) {b : Body} (hbody : Unfolds ls c (t.body ++ b)) :
    (R.set t.name ⟨t.names, true, c⟩).Carries ls ⟨ps ++ [t.extend b], main⟩ := by
  refine hR.update (t := t.extend b) (find?_concat_self hfresh) (fun a ha => ?_) hname hbody
  have ha' : a ≠ t.name := ha
  rw [find?_concat_ne ha, find?_concat_ne ha']

end Routines.Carries

/-! ## Reading methods -/

/-- The routines of a session are those of the loops and of the program. -/
def Assembles (tags : TagTable) (u : Text) (ls : List Repetition) (T : Program) (d : Option Text)
    (s : Session) : Prop :=
  ∃ R, Gathers tags u R ls.length d [] s ∧ R.Carries ls T

namespace Assembles
variable {tags : TagTable} {u e : Text} {ls : List Repetition} {ps : List Procedure} {p : Procedure}
  {main : Items} {s : Session} {k : Nat} {i : Item Template} {l : Repetition}
  {xs : List Text} {d : Sketch} {name : Option Text}

theorem ne_loopName (hname : p.name.isAlphanumeric) (n : Nat) : p.name ≠ loopName n := by
  intro heq
  rw [heq, isAlphanumeric_loopName] at hname
  cases hname

theorem line (h : Assembles tags u ls ⟨ps ++ [p], main⟩ (some p.name) s)
    (hfresh : p.name ∉ ps.map (·.name)) (hname : p.name.isAlphanumeric)
    (handle : Handler) (hk : 1 ≤ k) (hi : Calm (i.map source).written)
    (hu : isUnit u) (he : LineEnd e) (hreads : s.Reads u k) :
    ∃ s', (line handle (sourceLine u k (i.map source).written e)).runFrom s =
        (.ok (), s') ∧ s'.indentation.unit = some u ∧
      Assembles tags u ls ⟨ps ++ [p.extend [(k, i)]], main⟩ (some p.name) s' := by
  obtain ⟨R, hs, hR⟩ := h
  obtain ⟨b, hr, hunfolds⟩ := hR.method (find?_concat_self hfresh)
  obtain ⟨k, rfl⟩ : ∃ j, k = j + 1 := ⟨k - 1, by omega⟩
  obtain ⟨s', hrun, hunit, hs'⟩ := hs.kept handle hr hi hu he hreads
  exact ⟨s', hrun, hunit, _, hs', hR.extend hfresh (ne_loopName hname)
    (hunfolds.append (.line (k + 1, i) .nil))⟩

theorem calm_body (hl : l.IsSound) : ∀ x ∈ itemsOf l.body, Calm (x.2.map source).written := by
  intro x hx
  obtain ⟨y, hy, rfl⟩ := mem_map.mp hx
  refine Item.calm_source (hl.unrollable.fillable y hy) (fun n hn => ?_) (hl.unrollable.source y hy)
  rw [mem_singleton.mp hn]
  exact hl.unrollable.name.1

section Last
variable (h : Assembles tags u ls ⟨ps ++ [p], main⟩ (some p.name) s)
  (hnames : ∀ q ∈ ps ++ [p], q.name.isAlphanumeric) (hfresh : p.name ∉ ps.map (·.name))
  (handle : Handler)
include h hnames hfresh handle

theorem loop (hl : l.IsSound) (hk : 2 ≤ k) (hkl : k ≤ l.depth) (hi : Calm (i.map source).written)
    (hu : isUnit u) (hunit : s.indentation.unit = some u)
    (hxs : Forall₂ IsEnded (Clause.lines u (.loop l k i)) xs) :
    ∃ s', (xs.forM (Compile.line (Compile.line handle))).runFrom s = (.ok (), s') ∧
      s'.indentation.unit = some u ∧
      Assembles tags u (ls ++ [l]) ⟨ps ++ [p.extend (Clause.settled (.loop l k i))], main⟩ (some p.name)
        s' := by
  obtain ⟨R, hs, hR⟩ := h
  obtain ⟨depth, hdepth⟩ : ∃ j, l.depth = j + 1 := ⟨l.depth - 1, by omega⟩
  obtain ⟨j, rfl⟩ : ∃ j, k = j + 2 := ⟨k - 2, by omega⟩
  have hname : p.name.isAlphanumeric := hnames p (by simp)
  have hloop : ∀ a t, Program.find? ⟨ps ++ [p], main⟩ a = some t → ∀ n, a ≠ Compile.loopName n := by
    intro a t ha n
    obtain ⟨hmem, rfl⟩ := Program.find?_some ha
    exact ne_loopName (hnames t hmem) n
  rw [Clause.lines, Repetition.passage, Passage.lines, cons_append] at hxs
  rcases hxs with _ | ⟨⟨e₁, he₁, rfl⟩, hxs⟩
  obtain ⟨body, last, rfl, hbody, hlast⟩ := forall₂_append_left hxs
  rcases hlast with _ | ⟨⟨e₂, he₂, rfl⟩, hnil⟩
  cases hnil
  -- The header.
  obtain ⟨s₁, hrun₁, hunit₁, hs₁⟩ := hs.start (k := depth) (Compile.line handle) hl.unrollable.isLoop hu
    he₁ (.inl hunit)
  -- The body of the loop.
  replace hbody : Forall₂ IsEnded ((itemsOf l.body).map fun x =>
      u.times (depth + 1 + x.1) ++ (x.2.map source).written) body := by
    rw [itemsOf, map_map, ← hdepth]
    exact hbody
  obtain ⟨s₂, hrun₂, hunit₂, hs₂⟩ := hs₁.records (Compile.line handle) (Routines.set_self _ _)
    (calm_body hl) (fun x hx => by
      obtain ⟨y, hy, rfl⟩ := mem_map.mp hx
      exact hl.unrollable.depths y hy) hu hunit₁ hbody
  rw [Routines.set_set, nil_append] at hs₂
  -- The line that ends it, which is read again.
  have hR₂ := hR.addLoop l hloop
  obtain ⟨b, hr, hunfolds⟩ := hR₂.method (Program.find?_concat_self hfresh)
  obtain ⟨s₃, hrun₃, hunit₃, hs₃⟩ := hs₂.ended (Compile.line handle) hr hl.unrollable.items.2 hi hu he₂
    hunit₂ (show j + 1 ≤ depth by omega)
  have hcalls : Unfolds (ls ++ [l]) (b ++ loopCalls ls.length (depth + 1) l.items) (p.body ++ l.copies) := by
    refine hunfolds.append ?_
    have hend := Unfolds.loop (n := ls.length) (getElem?_concat_length (l := ls) (a := l)) .nil
    rwa [append_nil, append_nil, hdepth] at hend
  have hassembles : Assembles tags u (ls ++ [l]) ⟨ps ++ [p.extend l.copies], main⟩ (some p.name) s₃ := by
    refine ⟨_, ?_, hR₂.extend hfresh (ne_loopName hname) hcalls⟩
    rw [length_append]
    exact hs₃
  obtain ⟨s₄, hrun₄, hunit₄, hs₄⟩ := Assembles.line (p := p.extend l.copies) hassembles hfresh hname handle
    (Nat.le_add_left 1 j) hi hu he₂ (.inl hunit₃)
  refine ⟨s₄, ?_, hunit₄, ?_⟩
  · rw [sourceLine, ← hdepth, ← append_assoc] at hrun₁
    rw [sourceLine, ← append_assoc] at hrun₃
    exact (runFrom_forM_cons_ok hrun₁ _).trans ((runFrom_forM_append_ok hrun₂ _).trans
      (runFrom_forM_cons_ok (hrun₃.trans hrun₄) []))
  · have hextend : (p.extend l.copies).extend [(j + 1, i)] =
        p.extend (Clause.settled (.loop l (j + 2) i)) := by
      simp [extend, Clause.settled]
    rw [← hextend]
    exact hs₄

theorem clauses (hu : isUnit u) (hunit : s.indentation.unit = some u) {cs : List Clause}
    (hsound : ∀ c ∈ cs, c.IsSound) (hdepths : ∀ x ∈ cs.flatMap Clause.settled, 1 ≤ x.1)
    (hcalm : ∀ x ∈ cs.flatMap Clause.settled, Calm (x.2.map source).written)
    (hxs : Forall₂ IsEnded (cs.flatMap (Clause.lines u)) xs) :
    ∃ s', (xs.forM (Compile.line (Compile.line handle))).runFrom s = (.ok (), s') ∧
      s'.indentation.unit = some u ∧
      Assembles tags u (ls ++ cs.flatMap Clause.loops) ⟨ps ++ [p.extend (cs.flatMap Clause.settled)], main⟩
        (some p.name) s' := by
  induction cs generalizing ls p s xs with
  | nil =>
    cases hxs
    refine ⟨s, rfl, hunit, ?_⟩
    have hextend : p.extend [] = p := by rw [extend, append_nil]
    rw [flatMap_nil, flatMap_nil, append_nil, hextend]
    exact h
  | cons c cs ih =>
    rw [flatMap_cons] at hxs hdepths hcalm
    obtain ⟨ys, xs, rfl, hys, hxs⟩ := forall₂_append_left hxs
    have hfirst : ∃ s', (ys.forM (Compile.line (Compile.line handle))).runFrom s = (.ok (), s') ∧
        s'.indentation.unit = some u ∧
        Assembles tags u (ls ++ c.loops) ⟨ps ++ [p.extend c.settled], main⟩ (some p.name) s' := by
      have hlast : ∀ k i, (k, i) ∈ c.settled → Calm (i.map source).written :=
        fun k i hx => hcalm (k, i) (mem_append_left _ hx)
      cases c with
      | line k i =>
        rcases hys with _ | ⟨⟨e, he, rfl⟩, hnil⟩
        cases hnil
        obtain ⟨s', hrun, hunit', hs'⟩ := h.line hfresh (hnames p (by simp)) (Compile.line handle)
          (hdepths (k, i) (mem_append_left _ mem_cons_self)) (hlast k i mem_cons_self) hu he
          (.inl hunit)
        refine ⟨s', ?_, hunit', by rw [Clause.loops, append_nil]; exact hs'⟩
        rw [sourceLine, ← append_assoc] at hrun
        exact runFrom_forM_cons_ok hrun []
      | loop l k i =>
        obtain ⟨hl, hk, hkl⟩ := hsound _ mem_cons_self
        exact h.loop hnames hfresh handle hl hk hkl (hlast (k - 1) i (mem_append_right _ mem_cons_self))
          hu hunit hys
    obtain ⟨s₁, hrun₁, hunit₁, hs₁⟩ := hfirst
    rw [forall_mem_append] at hnames
    have hlast : ∀ q ∈ [p.extend c.settled], q.name.isAlphanumeric := by simpa [extend] using hnames.2
    obtain ⟨s₂, hrun₂, hunit₂, hs₂⟩ := ih hs₁ (forall_mem_append.mpr ⟨hnames.1, hlast⟩) hfresh hunit₁
      (forall_mem_cons.mp hsound).2
      (fun x hx => hdepths x (mem_append_right _ hx))
      (fun x hx => hcalm x (mem_append_right _ hx)) hxs
    refine ⟨s₂, (runFrom_forM_append_ok hrun₁ _).trans hrun₂, hunit₂, ?_⟩
    have hextend : (p.extend c.settled).extend (cs.flatMap Clause.settled) =
        p.extend ((c :: cs).flatMap Clause.settled) := by
      simp [extend]
    rw [hextend, append_assoc, ← flatMap_cons] at hs₂
    exact hs₂

end Last

theorem exists_first_line (hwf : (d.procedure Clause.settled).IsWellFormed)
    (hsound : ∀ c ∈ d.clauses, c.IsSound) : ∃ i cs, d.clauses = .line 1 i :: cs := by
  have hnonempty : d.clauses ≠ [] := fun h => hwf.nonempty (by rw [procedure, h]; rfl)
  obtain ⟨c, cs, hcs⟩ := exists_cons_of_ne_nil hnonempty
  have hstart := hwf.start
  rw [procedure, hcs] at hstart
  cases c with
  | line k i =>
    obtain rfl : k = 1 := hstart (k, i) rfl
    exact ⟨i, cs, hcs⟩
  | loop l k i =>
    obtain ⟨hl, hk, hkl⟩ := hsound (.loop l k i) (by rw [hcs]; exact mem_cons_self)
    obtain ⟨x, hx, hdepth⟩ := Repetition.head?_copies hl
    obtain ⟨rest, hcopies⟩ := head?_eq_some_iff.mp hx
    have hone := hstart x (by rw [flatMap_cons, Clause.settled, hcopies]; rfl)
    omega

theorem method (h : Assembles tags u ls ⟨ps, main⟩ name s)
    (hwf : (d.procedure Clause.settled).IsWellFormed) (hfree : tags.has d.name = false)
    (hun : isUnreserved d.header) (hsound : ∀ c ∈ d.clauses, c.IsSound)
    (hcalm : ∀ x ∈ (d.procedure Clause.settled).body, Calm (x.2.map source).written)
    (hnames : ∀ q ∈ ps, q.name.isAlphanumeric) (hfresh : d.name ∉ ps.map (·.name))
    (handle : Handler) (hu : isUnit u) (hunit : s.indentation.unit = some u ∨ s.indentation.unit = none)
    (hxs : Forall₂ IsEnded (d.lines u) xs) :
    ∃ s', (xs.forM (Compile.line (Compile.line handle))).runFrom s = (.ok (), s') ∧
      s'.indentation.unit = some u ∧
      Assembles tags u (ls ++ d.loops) ⟨ps ++ [d.procedure Clause.settled], main⟩ (some d.name) s' := by
  obtain ⟨R, hs, hR⟩ := h
  have hname : d.name.isAlphanumeric := isAlphanumeric_of_isTagName hwf.name
  rcases hxs with _ | ⟨⟨e, he, rfl⟩, hxs⟩
  obtain ⟨hrun, hs₁⟩ := hs.header (Compile.line handle) hwf.isDefinable hun hfree hu he hunit
  have hempty : Assembles tags u ls ⟨ps ++ [⟨d.name, d.parameters, d.colon, []⟩], main⟩ (some d.name)
      (s.define (d.procedure Clause.settled)) := by
    refine ⟨_, hs₁, hR.update (t := ⟨d.name, d.parameters, d.colon, []⟩)
      (find?_concat_self hfresh) (fun a ha => find?_concat_ne ha) (fun n => ?_) .nil⟩
    exact ne_loopName (p := d.procedure Clause.settled) hname n
  have hunit₁ : (s.define (d.procedure Clause.settled)).indentation.unit = s.indentation.unit := rfl
  generalize s.define (d.procedure Clause.settled) = s₁ at hrun hempty hunit₁
  -- The unit can be learnt from the first line.
  obtain ⟨i, cs, hclauses⟩ := exists_first_line hwf hsound
  have hbody : (d.procedure Clause.settled).body = (1, i) :: cs.flatMap Clause.settled := by
    rw [procedure, hclauses]
    rfl
  have hdepths := hwf.depths
  rw [hbody] at hcalm hdepths
  rw [hclauses] at hxs hsound
  rcases hxs with _ | ⟨⟨e', he', rfl⟩, hxs⟩
  obtain ⟨s₂, hrun₂, hunit₂, hs₂⟩ := hempty.line hfresh hname (Compile.line handle) (Nat.le_refl 1)
    (hcalm _ mem_cons_self) hu he'
    (by rw [Session.Reads, hunit₁]; exact hunit.imp id fun h => ⟨h, Nat.le_refl 1⟩)
  obtain ⟨s₃, hrun₃, hunit₃, hs₃⟩ := hs₂.clauses
    (forall_mem_append.mpr ⟨hnames, forall_mem_singleton.mpr hname⟩) hfresh handle hu hunit₂
    (forall_mem_cons.mp hsound).2 (forall_mem_cons.mp hdepths).2
    (forall_mem_cons.mp hcalm).2 hxs
  refine ⟨s₃, ?_, hunit₃, ?_⟩
  · rw [sourceLine, ← append_assoc] at hrun₂
    exact (runFrom_forM_cons_ok hrun _).trans ((runFrom_forM_cons_ok hrun₂ _).trans hrun₃)
  · have hextend : (extend ⟨d.name, d.parameters, d.colon, []⟩ [(1, i)]).extend
        (cs.flatMap Clause.settled) = d.procedure Clause.settled := by
      simp [extend, procedure, hclauses, Clause.settled]
    have hloops : d.loops = cs.flatMap Clause.loops := by
      simp [loops, hclauses, Clause.loops]
    rw [hextend] at hs₃
    rw [hloops]
    exact hs₃

theorem methods {ds : List Sketch} (h : Assembles tags u ls ⟨ps, main⟩ name s)
    (hds : ∀ d ∈ ds, (d.procedure Clause.settled).IsWellFormed ∧ tags.has d.name = false ∧
      isUnreserved d.header ∧ (∀ c ∈ d.clauses, c.IsSound) ∧
      ∀ x ∈ (d.procedure Clause.settled).body, Calm (x.2.map source).written)
    (hnames : ∀ q ∈ ps, q.name.isAlphanumeric)
    (hdistinct : ((ps ++ ds.map (procedure Clause.settled)).map (·.name)).Nodup)
    (handle : Handler) (hu : isUnit u) (hunit : s.indentation.unit = some u ∨ s.indentation.unit = none)
    (hxs : Forall₂ IsEnded (ds.flatMap (Sketch.lines u)) xs) :
    ∃ s' name', (xs.forM (Compile.line (Compile.line handle))).runFrom s = (.ok (), s') ∧
      (s'.indentation.unit = some u ∨ s'.indentation.unit = s.indentation.unit ∧ ds = []) ∧
      Assembles tags u (ls ++ ds.flatMap loops)
        ⟨ps ++ ds.map (procedure Clause.settled), main⟩ name' s' := by
  induction ds generalizing ls ps s name xs with
  | nil =>
    cases hxs
    refine ⟨s, name, rfl, .inr ⟨rfl, rfl⟩, ?_⟩
    rw [flatMap_nil, map_nil, append_nil, append_nil]
    exact h
  | cons d ds ih =>
    obtain ⟨hwf, hfree, hun, hsound, hcalm⟩ := hds d mem_cons_self
    rw [flatMap_cons] at hxs
    obtain ⟨ys, xs, rfl, hys, hxs⟩ := forall₂_append_left hxs
    rw [map_cons, append_cons] at hdistinct
    have hfresh : d.name ∉ ps.map (·.name) := by
      rw [map_append, map_append, append_assoc, nodup_append] at hdistinct
      intro hmem
      exact hdistinct.2.2 _ hmem _ (mem_append_left _ mem_cons_self) rfl
    obtain ⟨s₁, hrun₁, hunit₁, hs₁⟩ := h.method hwf hfree hun hsound hcalm hnames hfresh handle hu hunit hys
    have hname : (d.procedure Clause.settled).name.isAlphanumeric := isAlphanumeric_of_isTagName hwf.name
    obtain ⟨s₂, name₂, hrun₂, hunit₂, hs₂⟩ := ih hs₁ (forall_mem_cons.mp hds).2
      (forall_mem_append.mpr ⟨hnames, forall_mem_singleton.mpr hname⟩) hdistinct (.inl hunit₁) hxs
    have hlearnt : s₂.indentation.unit = some u := hunit₂.elim id fun h => h.1.trans hunit₁
    refine ⟨s₂, name₂, (runFrom_forM_append_ok hrun₁ _).trans hrun₂, .inl hlearnt, ?_⟩
    rw [flatMap_cons, map_cons, ← append_assoc, append_cons]
    exact hs₂

theorem start (tags : TagTable) (files : Files) (path u : Text) (main : Items) :
    Assembles tags u [] ⟨[], main⟩ none (Document.start tags files path) := by
  refine ⟨fun _ => none, ⟨rfl, rfl, rfl, rfl, rfl, rfl, rfl, ⟨0, rfl⟩, ⟨?_, fun _ => rfl, ?_⟩, ?_, rfl⟩, ?_⟩
  · exact fun h => by cases h
  · exact fun h => by cases h
  · exact fun _ _ h => by cases h
  · exact ⟨fun h => (by simp at h), fun h => (by cases h), fun h => (by cases h)⟩

end Assembles

/-! ## Compiling suites -/

namespace Suite
variable {S : Suite} {tags : TagTable} {u : Text}

theorem IsSound.method (h : S.IsSound tags u) {d : Sketch} (hd : d ∈ S.methods) :
    (d.procedure Clause.settled).IsWellFormed ∧ tags.has d.name = false ∧ isUnreserved d.header ∧
      (∀ c ∈ d.clauses, c.IsSound) ∧
      ∀ x ∈ (d.procedure Clause.settled).body, Calm (x.2.map source).written := by
  have hmem : d.procedure Clause.settled ∈ (S.program Clause.settled).procedures := mem_map_of_mem hd
  refine ⟨h.settled.procedures _ hmem, h.settled.free _ hmem, h.settled.unreserved _ ?_, h.clauses d hd,
    h.settled.body_calm hmem⟩
  exact mem_append_left _ (mem_flatMap.mpr ⟨_, hmem, mem_cons_self⟩)

theorem IsSound.loops (h : S.IsSound tags u) : ∀ l ∈ S.loops, l.IsSound ∧
    ∀ x ∈ l.copies, (S.program Clause.settled).admits x.2 := by
  intro l hl
  obtain ⟨d, hd, hl⟩ := mem_flatMap.mp hl
  obtain ⟨c, hc, hl⟩ := mem_flatMap.mp hl
  cases c with
  | line k i => cases hl
  | loop l' k i =>
    obtain rfl := mem_singleton.mp hl
    refine ⟨(h.clauses d hd _ hc).1, fun x hx => h.settled.bodies _ (mem_map_of_mem hd) x ?_⟩
    exact mem_flatMap.mpr ⟨_, hc, mem_append_left _ hx⟩

theorem IsSound.line_signs (h : S.IsSound tags u) (hu : isUnit u) : ∀ l ∈ S.lines u, Unbroken l := by
  intro l hl
  rcases mem_append.mp hl with hl | hl
  · obtain ⟨d, hd, hl⟩ := mem_flatMap.mp hl
    obtain ⟨hwf, _, _, hsound, hcalm⟩ := h.method hd
    rcases mem_cons.mp hl with rfl | hl
    · exact Procedure.line_signs hwf.isDefinable hu hcalm _ mem_cons_self
    · obtain ⟨c, hc, hl⟩ := mem_flatMap.mp hl
      cases c with
      | line k i =>
        obtain rfl := mem_singleton.mp hl
        exact (hcalm (k, i) (mem_flatMap.mpr ⟨_, hc, mem_cons_self⟩)).line_signs hu
      | loop r k i =>
        have hr := (hsound _ hc).1
        rcases mem_append.mp hl with hl | hl
        · rcases mem_cons.mp hl with rfl | hl
          · exact hr.unrollable.isLoop.header.line_signs hu
          · obtain ⟨x, hx, rfl⟩ := mem_map.mp hl
            exact (Assembles.calm_body hr (x.1, .markup x.2) (mem_map_of_mem hx)).line_signs hu
        · obtain rfl := mem_singleton.mp hl
          refine (hcalm (k - 1, i) (mem_flatMap.mpr ⟨_, hc, ?_⟩)).line_signs hu
          exact mem_append_right _ mem_cons_self
  · obtain ⟨x, hx, rfl⟩ := mem_map.mp hl
    exact (Item.ReadAs.calm (h.settled.main_calm hx)).line_signs hu

theorem length_methods_le (S : Suite) (u : Text) : S.methods.length ≤ (S.lines u).length := by
  have hlines := length_le_sum_of_one_le (S.methods.map fun d => (d.lines u).length)
    (by simp [Sketch.lines])
  rw [length_map, ← length_flatMap] at hlines
  rw [lines, length_append]
  exact hlines.trans (Nat.le_add_right _ _)

end Suite

theorem Routines.Carries.comes_lines {ls : List Repetition} {T : Program} {R : Routines}
      (hR : R.Carries ls T) (hls : ∀ l ∈ ls, l.IsSound) (hT : T.IsWellFormed tags u) {m : Nat} {xs : Items}
    {parts : List (Items)} (h : Forall₂ (fun x part => T.expand m x = some part) xs parts) :
    ∃ parts', Forall₂ (R.Comes (m + 1)) xs parts' ∧ Mirrors parts'.flatten parts.flatten := by
  induction h with
  | nil => exact ⟨[], .nil, .nil⟩
  | cons hx _ ih =>
    obtain ⟨lines, hcomes, hmirrors⟩ := hR.comes hls hT hx
    obtain ⟨parts', hcomes', hmirrors'⟩ := ih
    exact ⟨lines :: parts', .cons hcomes hcomes', hmirrors.append hmirrors'⟩

theorem Suite.IsSound.does_main {S : Suite} (h : S.IsSound tags u)
    (hu : isUnit u) {R : Routines} (hR : R.Carries S.loops (S.program Clause.settled)) {base : Store}
    (hM : R.Holds u base.methods) {m n : Nat} (hmn : m ≤ n) {parts : List (Items)}
    (hcomes : Forall₂ (R.Comes m) S.main parts)
    (hun : ∀ y ∈ parts.flatten, isUnreserved y.2.written) {xs : List Text}
    (hxs : Forall₂ IsEnded (S.main.map fun x => u.times x.1 ++ x.2.written) xs) :
    Does tags u (Keeping base (fun _ => True) []) (xs.forM (lineTo (n + 1))) (trace parts.flatten) := by
  have hT := h.settled
  have htrace : trace parts.flatten = (parts.map trace).flatten := map_flatten
  rw [htrace]
  refine Does.forM (forall₂_map_right_iff.mpr ((forall₂_join (forall₂_map_left_iff.mp hxs)
    (forall₂_mem hcomes)).imp fun x part hx => ?_))
  obtain ⟨a, ha, ⟨e, he, rfl⟩, _, hpart, hcome⟩ := hx
  obtain ⟨hplain, hadmits⟩ := hT.main a ha
  rw [append_assoc]
  exact Routines.Comes.does (hR.isSound (fun l hl => (h.loops l hl).1) hT fun l hl => (h.loops l hl).2) hM
    (hR.acyclic hT) (fun hab hbc => hab.trans hbc) hu (fun _ _ _ _ => trivial) hcome
    ⟨hplain, hR.admits_item hplain hadmits⟩
    (fun y hy => hun y (mem_flatten.mpr ⟨part, hpart, hy⟩))
    (fun x hx => absurd hx not_mem_nil) hmn (hT.main_calm ha) he

/-! ## Traces that climb -/

theorem Page.depth_le_room {p q : Page} {depth : Nat} {entry : Option Text}
    (hfresh : p.fresh → depth = 0) (h : p.enter tags u depth entry = .ok q) : depth ≤ p.room := by
  cases hf : p.fresh with
  | true =>
    rw [hfresh hf]
    exact Nat.zero_le _
  | false =>
    rw [enter] at h
    by_contra hlt
    have hdeep : (1 : Int) < depth - p.level := by
      simp only [room, hf, Bool.false_eq_true, if_false] at hlt
      omega
    have hclosings : p.closings depth = .error (.rejected .indentation) := by
      simp only [closings, Indentation.closings, hf]
      rw [if_neg (by simp only [Bool.and_eq_true, decide_eq_true_eq]; omega), if_pos hdeep]
    rw [hclosings] at h
    cases h

theorem Page.climbs_of_follow {p q : Page} {t : Trace}
    (hfresh : p.fresh → ∀ x ∈ t.head?, x.1 = 0) (h : p.follow tags u t = .ok q) : t.Climbs p.room := by
  induction t generalizing p with
  | nil => trivial
  | cons x t ih =>
    obtain ⟨r, hx, h⟩ := follow_cons_eq_ok h
    have hroom := (step_ok hx).2
    have hplaced : r.fresh = false := by
      cases hf : r.fresh with
      | false => rfl
      | true =>
        rw [room, hf, if_pos rfl] at hroom
        cases hroom
    refine ⟨?_, hroom ▸ ih (fun hf => by rw [hplaced] at hf; cases hf) h⟩
    obtain ⟨k, _ | m⟩ := x
    · exact depth_le_room (fun hf => hfresh hf _ rfl) hx
    · obtain ⟨_, r, hr, rfl⟩ := put_ok hx
      exact depth_le_room (fun hf => hfresh hf _ rfl) hr

theorem Outline.wellIndented_of_climbs {o : Outline} (h : o.trace.Climbs 0) : WellIndented o.depths := by
  have hchain : ∀ (o : Outline) (n : Nat), o.trace.Climbs n → o.depths.IsChain fun d e => e ≤ d + 1 := by
    intro o
    induction o with
    | nil => exact fun _ _ => .nil
    | cons x o ih =>
      intro n hc
      refine isChain_cons.mpr ⟨fun d hd => ?_, ih (x.1 + 1) hc.2⟩
      cases o with
      | nil => cases hd
      | cons y o =>
        obtain rfl := Option.some.inj hd
        exact hc.2.1
  refine ⟨hchain o 0 h, fun d hd => ?_⟩
  cases o with
  | nil => cases hd
  | cons x o =>
    obtain rfl := Option.some.inj hd
    exact Nat.le_zero.mp h.1

namespace Document
variable {tags : TagTable} {files : Files} {path u : Text}

/-- The output of a suite is what the lines leave on the page that its program comes to, where
the lines that end loops have lost a level. If these go up by more than one level at a time, the suite
does not compile. -/
theorem compile_suite (S : Suite) {terminated : Bool} (hu : isUnit u)
    (hread : HasFile files path (sourceText (S.lines u) terminated))
    (hS : S.IsSound tags u) (hstart : ∃ x ∈ S.main.head?, x.1 = 0)
    (hun : ∀ x ∈ (S.program Clause.settled).met?.getD [], isUnreserved x.2.written)
    (hunit : S.methods ≠ [] ∨ WellIndented (S.program Clause.settled).inlined.depths) :
    (WellIndented (S.program Clause.settled).inlined.depths →
      Renders tags u files path (({} : Page).follow tags u (S.program Clause.settled).inlined.trace)) ∧
    (¬ WellIndented (S.program Clause.settled).inlined.depths →
      ∃ g, (compile tags files path).fault = some g) := by
  have hT := hS.settled
  obtain ⟨n, hn, hhandle⟩ := handle_eq tags hread
  obtain ⟨n, rfl⟩ : ∃ N, n = N + 1 := ⟨n - 1, by omega⟩
  have hlength : (S.program Clause.settled).procedures.length + 1 ≤ n + 1 := by
    have hlines := length_le_sourceText (fun l hl => (hS.line_signs hu l hl).1) terminated
    have hmethods := S.length_methods_le u
    rw [Suite.program, length_map]
    omega
  -- The methods are read before the main part runs.
  obtain ⟨ys, xs, hcut, hys, hxs⟩ := forall₂_append_left (forall₂_ended (S.lines u) terminated)
  obtain ⟨s, name, hrun, hlearnt, R, hs, hR⟩ := (Assembles.start tags files path u S.main).methods
    (fun d hd => hS.method hd) (by simp) (by rw [nil_append]; exact hT.distinct) (Compile.lineTo n) hu
    (.inr rfl) hys
  rw [nil_append, nil_append] at hR
  rw [nil_append] at hs
  have hknown : s.indentation.unit = some u ∨ s.indentation.unit = none := hlearnt.imp id And.left
  have hrun' : (((Source.lines (sourceText (S.lines u) terminated)).map (·.2)).forM
      (handle tags files path)).runFrom (start tags files path) =
      (xs.forM (handle tags files path)).runFrom s := by
    rw [source_lines (hS.line_signs hu), hcut, hhandle]
    exact runFrom_forM_append_ok hrun xs
  have hls : ∀ l ∈ S.loops, l.IsSound := fun l hl => (hS.loops l hl).1
  -- What the main part comes to.
  obtain ⟨parts, hmet, hparts⟩ := exists_met hT
  obtain ⟨parts', hcomes, hmirrors⟩ := hR.comes_lines hls hT hparts
  have hdense : (trace parts'.flatten).dense = (S.program Clause.settled).inlined.trace := by
    rw [hmirrors.dense, dense_trace, inlined, hmet]
    rfl
  have hclimbs : (trace parts'.flatten).Climbs 0 ↔
      WellIndented (S.program Clause.settled).inlined.depths := by
    rw [Trace.climbs_dense hmirrors.covered, hdense]
    exact ⟨Outline.wellIndented_of_climbs, Outline.climbs_trace⟩
  rw [hmet] at hun
  have hwords := hmirrors.unreserved hun
  have hholds : R.Holds u s.grounded.store.methods := hs.holds
  have hdoes := hS.does_main hu hR hholds hlength hcomes hwords hxs
  -- The first line of the main part is at the left edge.
  obtain ⟨x, hx, hdepth⟩ := hstart
  obtain ⟨main, hmain⟩ := head?_eq_some_iff.mp hx
  have hfirst : ∀ y ∈ (trace parts'.flatten).head?, y.1 = 0 := by
    have hcons : (S.program Clause.settled).main = x :: main := hmain
    rw [hcons] at hcomes
    rcases hcomes with _ | ⟨hcome, _⟩
    obtain ⟨rest, rfl⟩ := head?_eq_some_iff.mp hcome.head?
    rintro y ⟨⟩
    exact hdepth
  have hagrees : Agrees (xs.forM (handle tags files path)) s s.grounded := by
    rw [hmain] at hxs
    rcases hxs with _ | ⟨⟨e, he, rfl⟩, hxs⟩
    rw [hhandle]
    have hread := hT.main_calm (mem_of_mem_head? hx)
    have hedge := hs.agrees_first hknown hread hu he (Compile.lineTo (n + 1))
    rw [← hdepth, sourceLine, ← append_assoc] at hedge
    exact hedge.bind _
  have hpage : s.grounded.page = {} := hs.page_grounded
  have hmeasures : s.grounded.Measures u (trace parts'.flatten) := by
    rcases hlearnt with hlearnt | ⟨_, hnone⟩
    · exact .inl hlearnt
    · refine .inr ?_
      rw [hpage]
      exact hclimbs.mpr (hunit.resolve_left fun h => h hnone)
  rw [← hhandle] at hdoes
  have hends := (hdoes s.grounded (hs.idle hknown) (.refl fun _ _ => trivial) hmeasures).of_agrees hagrees
    fun h => h
  rw [hpage] at hends
  constructor
  · intro hw
    have hblank := Page.balanced_empty
    rw [hblank.follow_dense (hclimbs.mpr hw) hmirrors.covered, hdense] at hends
    exact compile_of_ends (indents_of_isUnit hu) hread hrun' hends
  · intro hw
    cases hfollow : ({} : Page).follow tags u (trace parts'.flatten) with
    | ok p => exact absurd (hclimbs.mp (Page.climbs_of_follow (fun _ => hfirst) hfollow)) hw
    | error f =>
      rw [hfollow] at hends
      exact compile_of_ends (indents_of_isUnit hu) hread hrun' hends

end Document
end OutlineMarkup
