import OutlineMarkup.Proofs.PrintedDepths
import OutlineMarkup.Proofs.Suites

/-!
# Levels lost after loops

A suite and the program with its loops unrolled differ in the depth of the lines that end loops in
methods. Main statement: where the unrolled program is well indented, the two compile to the same
output exactly if no method with a loop is ever called.
-/

namespace OutlineMarkup
open List Outline Program Clause Sketch
variable {α : Type} {a b : Items} {P : Program} {tags : TagTable} {u : Text}

/-- The same item, and not deeper. -/
def Lowers {α : Type} (x y : Nat × Item α) : Prop := x.1 ≤ y.1 ∧ x.2 = y.2

theorem forall₂_lowers_refl (b : List (Nat × Item α)) : Forall₂ Lowers b b :=
  forall₂_same.mpr fun _ _ => ⟨Nat.le_refl _, rfl⟩

theorem eq_of_forall₂_lowers {a b : List (Nat × Item α)} (h : Forall₂ Lowers a b)
    (hdepths : a.map Prod.fst = b.map Prod.fst) : a = b := by
  induction h with
  | nil => rfl
  | cons hxy _ ih =>
    obtain ⟨hdepth, hdepths⟩ := cons.inj hdepths
    rw [Prod.ext hdepth hxy.2, ih hdepths]

theorem forall₂_images {β γ δ : Type} {R : α → β → Prop} {A : α → γ → Prop} {B : β → δ → Prop}
    {Q : γ → δ → Prop} {xs : List α} {ys : List β} {as : List γ} {bs : List δ} (h : Forall₂ R xs ys)
    (ha : Forall₂ A xs as) (hb : Forall₂ B ys bs)
    (hQ : ∀ x y a b, R x y → A x a → B y b → Q a b) : Forall₂ Q as bs := by
  induction h generalizing as bs with
  | nil =>
    cases ha
    cases hb
    exact .nil
  | cons hxy _ ih =>
    rcases ha with _ | ⟨hxa, ha⟩
    rcases hb with _ | ⟨hyb, hb⟩
    exact .cons (hQ _ _ _ _ hxy hxa hyb) (ih ha hb)

/-! ## Methods -/

namespace Clause

theorem lowers_settled (c : Clause) : Forall₂ Lowers c.settled c.unrolled := by
  cases c with
  | line k i => exact forall₂_lowers_refl _
  | loop l k i => exact rel_append (forall₂_lowers_refl _) (.cons ⟨Nat.sub_le k 1, rfl⟩ .nil)

theorem settled_eq_iff {c : Clause} (hc : c.IsSound) : c.settled = c.unrolled ↔ c.loops = [] := by
  cases c with
  | line k i => simp [settled, unrolled, loops]
  | loop l k i =>
    obtain ⟨_, hk, _⟩ := hc
    simp only [settled, unrolled, loops, append_cancel_left_eq]
    refine ⟨fun h => ?_, fun h => by cases h⟩
    obtain ⟨h, _⟩ := cons.inj h
    have hdepth : k - 1 = k := congrArg Prod.fst h
    omega

theorem one_le_settled {c : Clause} (hc : c.IsSound) (h : ∀ x ∈ c.unrolled, 1 ≤ x.1) :
    ∀ x ∈ c.settled, 1 ≤ x.1 := by
  cases c with
  | line k i => exact h
  | loop l k i =>
    obtain ⟨_, hk, _⟩ := hc
    intro x hx
    rcases mem_append.mp hx with hx | hx
    · exact h x (mem_append_left _ hx)
    · rw [mem_singleton.mp hx]
      change 1 ≤ k - 1
      omega

end Clause

namespace Sketch
variable {d : Sketch}

theorem lowers_body (d : Sketch) : Forall₂ Lowers (d.procedure settled).body (d.procedure unrolled).body := by
  have hclauses : ∀ cs : List Clause, Forall₂ Lowers (cs.flatMap settled) (cs.flatMap unrolled) := by
    intro cs
    induction cs with
    | nil => exact .nil
    | cons c cs ih =>
      rw [flatMap_cons, flatMap_cons]
      exact rel_append c.lowers_settled ih
  exact hclauses d.clauses

theorem body_eq_iff (hd : ∀ c ∈ d.clauses, c.IsSound) :
    (d.procedure settled).body = (d.procedure unrolled).body ↔ d.loops = [] := by
  have hclauses : ∀ cs : List Clause, (∀ c ∈ cs, c.IsSound) →
      (cs.flatMap Clause.settled = cs.flatMap Clause.unrolled ↔ cs.flatMap Clause.loops = []) := by
    intro cs hcs
    induction cs with
    | nil => exact ⟨fun _ => rfl, fun _ => rfl⟩
    | cons c cs ih =>
      have hlength := c.lowers_settled.length_eq
      rw [flatMap_cons, flatMap_cons, flatMap_cons, append_eq_nil_iff, ← ih (forall_mem_cons.mp hcs).2,
        ← settled_eq_iff (hcs c mem_cons_self)]
      exact ⟨fun h => append_inj h hlength, fun ⟨h, h'⟩ => by rw [h, h']⟩
  exact hclauses d.clauses hd

theorem exists_unrolled {x : Nat × Item Template} (hx : x ∈ (d.procedure settled).body) :
    ∃ y ∈ (d.procedure unrolled).body, Lowers x y := exists_of_forall₂ (Forall₂.flip d.lowers_body) hx

theorem depths_settled (hd : ∀ c ∈ d.clauses, c.IsSound) (h : ∀ x ∈ (d.procedure unrolled).body, 1 ≤ x.1) :
    ∀ x ∈ (d.procedure settled).body, 1 ≤ x.1 := by
  intro x hx
  obtain ⟨c, hc, hx⟩ := mem_flatMap.mp hx
  exact one_le_settled (hd c hc) (fun y hy => h y (mem_flatMap.mpr ⟨c, hc, hy⟩)) x hx

theorem isWellFormed_settled (hd : ∀ c ∈ d.clauses, c.IsSound)
    (h : (d.procedure unrolled).IsWellFormed) : (d.procedure settled).IsWellFormed where
  name := h.name
  distinct := h.distinct
  names := h.names
  start := by
    have hdepths := depths_settled hd h.depths
    have hlowers := d.lowers_body
    have hstart := h.start
    intro x hx
    obtain ⟨rest, hbody⟩ := head?_eq_some_iff.mp hx
    rw [hbody] at hlowers hdepths
    generalize (d.procedure unrolled).body = b at hlowers hstart
    rcases hlowers with _ | ⟨hxy, _⟩
    have hle := hxy.1
    rw [hstart _ rfl] at hle
    exact Nat.le_antisymm hle (hdepths x mem_cons_self)
  nonempty := by
    intro hnil
    have hlength := d.lowers_body.length_eq
    rw [hnil] at hlength
    exact h.nonempty (eq_nil_of_length_eq_zero hlength.symm)
  depths := depths_settled hd h.depths
  sound x hx := by
    obtain ⟨y, hy, hxy⟩ := exists_unrolled hx
    rw [hxy.2]
    exact h.sound y hy

end Sketch

/-! ## Programs -/

namespace Suite
variable {S : Suite} {tags : TagTable} {u : Text}

def find? (S : Suite) (name : Text) : Option Sketch := S.methods.find? (·.name == name)

def isLooped (S : Suite) (name : Text) : Bool := (S.find? name).any fun d => !d.loops.isEmpty

/-- None of the lines calls a method with a loop. -/
def Avoids (S : Suite) (lines : List (Nat × Item Text)) : Prop :=
  ∀ x ∈ lines, ∀ name ∈ x.2.callee?, S.isLooped name = false

theorem find?_program (f : Clause → Body) (name : Text) :
    (S.program f).find? name = (S.find? name).map (procedure f) := by
  rw [Program.find?, program, find?, find?_map]
  rfl

theorem admits_program (f g : Clause → Body) (i : Item α) :
    (S.program f).admits i = (S.program g).admits i := by
  cases i with
  | markup m => simp [admits, find?_program]
  | call name arguments colon =>
    simp only [admits, find?_program, Option.any_map]
    rfl

theorem calls_unrolled {a b : Text} (h : (S.program settled).Calls a b) : (S.program unrolled).Calls a b := by
  obtain ⟨p, hp, rfl, x, hx, hb⟩ := h
  obtain ⟨d, hd, rfl⟩ := mem_map.mp hp
  obtain ⟨y, hy, hxy⟩ := exists_unrolled hx
  exact ⟨_, mem_map_of_mem hd, rfl, y, hy, hxy.2 ▸ hb⟩

theorem isSound_of_unrolled (h : (S.program unrolled).IsWellFormed tags u)
    (hclauses : ∀ d ∈ S.methods, ∀ c ∈ d.clauses, c.IsSound) : S.IsSound tags u := by
  have hmem : ∀ {d}, d ∈ S.methods → d.procedure unrolled ∈ (S.program unrolled).procedures :=
    fun hd => mem_map_of_mem hd
  refine ⟨⟨?_, fun p hp => ?_, fun p hp => ?_, fun p hp x hx => ?_, fun x hx => ?_, fun l hl => ?_,
    fun name hcycle => ?_⟩, hclauses⟩
  · have hdistinct := h.distinct
    rw [program, map_map] at hdistinct ⊢
    exact hdistinct
  · obtain ⟨d, hd, rfl⟩ := mem_map.mp hp
    exact isWellFormed_settled (hclauses d hd) (h.procedures _ (hmem hd))
  · obtain ⟨d, hd, rfl⟩ := mem_map.mp hp
    exact h.free (d.procedure unrolled) (hmem hd)
  · obtain ⟨d, hd, rfl⟩ := mem_map.mp hp
    obtain ⟨y, hy, hxy⟩ := exists_unrolled hx
    rw [hxy.2, admits_program settled unrolled]
    exact h.bodies _ (hmem hd) y hy
  · rw [admits_program settled unrolled]
    exact h.main x hx
  · rcases mem_append.mp hl with hl | hl
    · obtain ⟨p, hp, hl⟩ := mem_flatMap.mp hl
      obtain ⟨d, hd, rfl⟩ := mem_map.mp hp
      have hlines : ∀ l ∈ (d.procedure unrolled).lines u, isUnreserved l := fun l hl =>
        h.unreserved l (mem_append_left _ (mem_flatMap.mpr ⟨_, hmem hd, hl⟩))
      rcases mem_cons.mp hl with rfl | hl
      · exact hlines _ mem_cons_self
      · obtain ⟨⟨k, i⟩, hx, rfl⟩ := mem_map.mp hl
        obtain ⟨⟨k', i'⟩, hy, hxy⟩ := exists_unrolled hx
        obtain ⟨hdepth, rfl⟩ : k ≤ k' ∧ i = i' := hxy
        have hline := hlines _ (.tail _ (mem_map.mpr ⟨_, hy, rfl⟩))
        obtain ⟨j, rfl⟩ := Nat.exists_eq_add_of_le' hdepth
        refine isUnreserved_of_isInfix hline (IsSuffix.isInfix ⟨u.times j, ?_⟩)
        change u.times j ++ (u.times k ++ _) = u.times (j + k) ++ _
        rw [Text.times_add, append_assoc]
    · exact h.unreserved l (mem_append_right _ hl)
  · exact h.acyclic name (Relation.TransGen.mono (fun _ _ => calls_unrolled) _ _ hcycle)

end Suite

/-! ## Expansion -/

theorem Program.map_head? {n : Nat} {xs : Items}
    {parts : List (Items)} (h : Forall₂ (fun x part => P.expand n x = some part) xs parts) :
    parts.map head? = xs.map some := by
  induction h with
  | nil => rfl
  | cons hx _ ih => rw [map_cons, map_cons, expand_head? hx, ih]

namespace Suite
variable {S : Suite} {n k k' : Nat} {x y : Nat × Item Text} {a b : Items} {name : Text}
  {d : Sketch} {parts parts' : List (Items)}

theorem lowers_inlined (d : Sketch) (hk : k ≤ k') (arguments : List Text) :
    Forall₂ Lowers ((d.procedure settled).inlined k arguments)
      ((d.procedure unrolled).inlined k' arguments) := by
  rw [Procedure.inlined, Procedure.inlined, forall₂_map_left_iff, forall₂_map_right_iff]
  refine d.lowers_body.imp ?_
  rintro ⟨j, i⟩ ⟨j', _⟩ ⟨hj, rfl⟩
  refine ⟨?_, rfl⟩
  replace hj : j ≤ j' := hj
  change k + j - 1 ≤ k' + j' - 1
  omega

theorem expand_calls {arguments : Option (List Text)} {colon : Bool}
    (ha : (S.program settled).expand n (k, .call name arguments colon) = some a)
    (hb : (S.program unrolled).expand n (k', .call name arguments colon) = some b) :
    ∃ m d parts parts', n = m + 1 ∧ S.find? name = some d ∧
      Forall₂ (fun x part => (S.program settled).expand m x = some part)
        ((d.procedure settled).inlined k (arguments.getD [])) parts ∧
      Forall₂ (fun x part => (S.program unrolled).expand m x = some part)
        ((d.procedure unrolled).inlined k' (arguments.getD [])) parts' ∧
      a = (k, .call name arguments colon) :: parts.flatten ∧
      b = (k', .call name arguments colon) :: parts'.flatten := by
  obtain ⟨m, p, parts, hm, hp, hparts, ha⟩ := expand_call ha
  obtain ⟨m', q, parts', hm', hq, hparts', hb⟩ := expand_call hb
  obtain rfl : m = m' := by omega
  rw [find?_program] at hp hq
  obtain ⟨d, hd, rfl⟩ := Option.map_eq_some_iff.mp hp
  obtain ⟨d', hd', rfl⟩ := Option.map_eq_some_iff.mp hq
  obtain rfl : d = d' := Option.some.inj (hd.symm.trans hd')
  exact ⟨m, d, parts, parts', hm, hd, hparts, hparts', ha, hb⟩

/-- The lines of a suite come to the same items as those of the unrolled program, not deeper. -/
theorem lowers_expand (hxy : Lowers x y) (ha : (S.program settled).expand n x = some a)
    (hb : (S.program unrolled).expand n y = some b) : Forall₂ Lowers a b := by
  induction n using Nat.strong_induction_on generalizing x y a b with
  | _ n ih =>
    obtain ⟨k, i⟩ := x
    obtain ⟨k', i'⟩ := y
    obtain ⟨hk, rfl⟩ : k ≤ k' ∧ i = i' := hxy
    cases i with
    | markup m =>
      rw [expand_markup ha, expand_markup hb]
      exact .cons ⟨hk, rfl⟩ .nil
    | call name arguments colon =>
      obtain ⟨m, d, parts, parts', rfl, _, hparts, hparts', rfl, rfl⟩ := expand_calls ha hb
      refine .cons ⟨hk, rfl⟩ (rel_flatten ?_)
      exact forall₂_images (lowers_inlined d hk _) hparts hparts' fun x y a b hxy =>
        ih m (Nat.lt_succ_self m) hxy

theorem avoids_markup (k : Nat) (m : Markup Text) : S.Avoids [(k, .markup m)] := by
  intro x hx name hname
  rw [mem_singleton.mp hx] at hname
  cases hname

theorem avoids_call (hd : S.find? name = some d) (arguments : Option (List Text)) (colon : Bool) :
    S.Avoids ((k, .call name arguments colon) :: b) ↔ d.loops = [] ∧ S.Avoids b := by
  have hlooped : S.isLooped name = !d.loops.isEmpty := by
    rw [isLooped, hd]
    rfl
  simp only [Avoids, mem_cons, forall_eq_or_imp]
  refine and_congr_left fun _ => ⟨fun h => ?_, fun h callee hcallee => ?_⟩
  · have hname := h name rfl
    rw [hlooped] at hname
    simpa using hname
  · obtain rfl : name = callee := Option.some.inj hcallee
    rw [hlooped, h]
    rfl

theorem loops_eq_nil_of_inlined (hclauses : ∀ c ∈ d.clauses, c.IsSound)
    (hdepths : ∀ x ∈ (d.procedure unrolled).body, 1 ≤ x.1) {arguments : List Text}
    (h : (d.procedure settled).inlined k arguments =
      (d.procedure unrolled).inlined k arguments) : d.loops = [] := by
  rw [← Sketch.body_eq_iff hclauses]
  refine eq_of_forall₂_lowers d.lowers_body ?_
  have hback : ∀ b : Body, (∀ x ∈ b, 1 ≤ x.1) → b.map (fun x => k + x.1 - 1 + 1 - k) = b.map Prod.fst := by
    intro b hb
    refine map_congr_left fun x hx => ?_
    have hone := hb x hx
    omega
  have hdepth := congrArg (map fun x => x.1 + 1 - k) h
  rw [Procedure.inlined, Procedure.inlined, map_map, map_map] at hdepth
  have hsettled := Sketch.depths_settled hclauses hdepths
  exact (hback _ hsettled).symm.trans (hdepth.trans (hback _ hdepths))

theorem flatten_eq_iff
    (h : Forall₂ (Forall₂ Lowers) parts parts') : parts.flatten = parts'.flatten ↔ parts = parts' := by
  refine ⟨fun heq => eq_iff_flatten_eq.mpr ⟨heq, ?_⟩, fun heq => by rw [heq]⟩
  induction h with
  | nil => rfl
  | cons hab hrest ih =>
    rw [flatten_cons, flatten_cons] at heq
    rw [map_cons, map_cons, hab.length_eq, ih (append_inj_right heq hab.length_eq)]

/-- Lines come to the same in both programs exactly if each of them does. -/
theorem parts_eq_iff {xs : Items} (hline : ∀ x a b, (S.program settled).expand n x = some a →
      (S.program unrolled).expand n x = some b → (a = b ↔ S.Avoids b))
    (ha : Forall₂ (fun x part => (S.program settled).expand n x = some part) xs parts)
    (hb : Forall₂ (fun x part => (S.program unrolled).expand n x = some part) xs parts') :
    parts.flatten = parts'.flatten ↔ S.Avoids parts'.flatten := by
  have hlowers : Forall₂ (Forall₂ Lowers) parts parts' :=
    forall₂_images (forall₂_lowers_refl xs) ha hb fun x y a b hxy => lowers_expand hxy
  rw [flatten_eq_iff hlowers]
  clear hlowers
  induction ha generalizing parts' with
  | nil =>
    cases hb
    exact ⟨fun _ x hx => absurd hx not_mem_nil, fun _ => rfl⟩
  | cons hxa _ ih =>
    rcases hb with _ | ⟨hxb, hb⟩
    rw [cons.injEq, flatten_cons]
    refine (and_congr (hline _ _ _ hxa hxb) (ih hb)).trans ?_
    simp [Avoids, or_imp, forall_and]

theorem expand_eq_iff (hclauses : ∀ d ∈ S.methods, ∀ c ∈ d.clauses, c.IsSound)
    (hdepths : ∀ d ∈ S.methods, ∀ x ∈ (d.procedure unrolled).body, 1 ≤ x.1)
    (ha : (S.program settled).expand n x = some a)
    (hb : (S.program unrolled).expand n x = some b) : a = b ↔ S.Avoids b := by
  induction n using Nat.strong_induction_on generalizing x a b with
  | _ n ih =>
    obtain ⟨k, m | ⟨name, arguments, colon⟩⟩ := x
    · rw [expand_markup ha, expand_markup hb]
      exact ⟨fun _ => avoids_markup k m, fun _ => rfl⟩
    · obtain ⟨m, d, parts, parts', rfl, hd, hparts, hparts', rfl, rfl⟩ := expand_calls ha hb
      have hmem : d ∈ S.methods := mem_of_find?_eq_some hd
      rw [avoids_call hd, cons.injEq]
      by_cases hloops : d.loops = []
      · -- The method is the same in both programs.
        have hsame : d.procedure settled = d.procedure unrolled :=
          congrArg (Procedure.mk d.name d.parameters d.colon)
            ((body_eq_iff (hclauses d hmem)).mpr hloops)
        rw [hsame] at hparts
        rw [parts_eq_iff (fun x a b => ih m (Nat.lt_succ_self m)) hparts hparts']
        exact ⟨fun h => ⟨hloops, h.2⟩, fun h => ⟨rfl, h.2⟩⟩
      · -- The lines of the body are not all at the same depths.
        refine ⟨fun h => absurd ?_ hloops, fun h => absurd h.1 hloops⟩
        have hlines : Forall₂ (Forall₂ Lowers) parts parts' :=
          forall₂_images (lowers_inlined d (Nat.le_refl k) _) hparts hparts' fun x y a b hxy =>
            lowers_expand hxy
        obtain rfl := (flatten_eq_iff hlines).mp h.2
        have hinlined := (map_head? hparts).symm.trans (map_head? hparts')
        rw [map_inj_right fun _ _ => Option.some.inj] at hinlined
        exact loops_eq_nil_of_inlined (hclauses d hmem) (hdepths d hmem) hinlined

theorem met_settled (hQ : (S.program unrolled).IsWellFormed tags u)
    (hclauses : ∀ d ∈ S.methods, ∀ c ∈ d.clauses, c.IsSound) :
    ∃ a b, (S.program settled).met? = some a ∧ (S.program unrolled).met? = some b ∧
      Forall₂ Lowers a b ∧ (a = b ↔ S.Avoids b) := by
  have hS := isSound_of_unrolled hQ hclauses
  obtain ⟨parts, ha, hparts⟩ := exists_met hS.settled
  obtain ⟨parts', hb, hparts'⟩ := exists_met hQ
  refine ⟨_, _, ha, hb, ?_⟩
  have hlength : ∀ f, (S.program f).procedures.length = S.methods.length := fun f => length_map _
  rw [hlength] at hparts hparts'
  have hdepths : ∀ d ∈ S.methods, ∀ x ∈ (d.procedure unrolled).body, 1 ≤ x.1 := fun d hd =>
    (hQ.procedures _ (mem_map_of_mem hd)).depths
  refine ⟨rel_flatten (forall₂_images (forall₂_lowers_refl S.main) hparts hparts'
    fun x y a b hxy => lowers_expand hxy), ?_⟩
  exact parts_eq_iff (fun x a b => expand_eq_iff hclauses hdepths) hparts hparts'

end Suite

/-! ## Documents -/

/-- Traces of the same markup that are covered are the same if they are without their empty steps. -/
theorem Trace.eq_of_dense {t r : Trace} (h : Forall₂ (fun x y => x.2 = y.2) t r) (ht : t.Covered)
    (hr : r.Covered) (hdense : t.dense = r.dense) : t = r := by
  induction h with
  | nil => rfl
  | @cons x y t r hxy _ ih =>
    obtain ⟨k, o⟩ := x
    obtain ⟨k', o'⟩ := y
    obtain rfl : o = o' := hxy
    cases o with
    | none =>
      obtain ⟨⟨z, hz, hk⟩, ht⟩ := ht
      obtain ⟨⟨z', hz', hk'⟩, hr⟩ := hr
      obtain rfl := ih ht hr hdense
      obtain rfl : z = z' := Option.some.inj (hz.symm.trans hz')
      rw [← hk, ← hk']
    | some m =>
      rw [dense, dense, filter_cons_of_pos rfl, filter_cons_of_pos rfl] at hdense
      obtain ⟨hhead, htail⟩ := cons.inj hdense
      rw [hhead, ih ht hr htail]

namespace Program

def markups (lines : List (Nat × Item Text)) : Outline :=
  lines.filterMap fun (k, i) => i.markup?.map (k, ·)

theorem inlined_eq_markups {lines : Items} (h : P.met? = some lines) : P.inlined = markups lines := by
  rw [inlined, h]
  rfl

theorem map_markups (h : Forall₂ Lowers a b) : (markups a).map Prod.snd = (markups b).map Prod.snd := by
  induction h with
  | nil => rfl
  | @cons x y a b hxy _ ih =>
    obtain ⟨k, i⟩ := x
    obtain ⟨k', i'⟩ := y
    obtain ⟨_, rfl⟩ : k ≤ k' ∧ i = i' := hxy
    cases i with
    | markup m => exact congrArg (cons m) ih
    | call name arguments colon => exact ih

theorem markups_eq_iff (h : Forall₂ Lowers a b)
    (ha : (trace a).Covered) (hb : (trace b).Covered) : markups a = markups b ↔ a = b := by
  refine ⟨fun heq => ?_, fun heq => by rw [heq]⟩
  have htrace : trace a = trace b := by
    refine Trace.eq_of_dense ?_ ha hb ?_
    · rw [trace, trace, forall₂_map_left_iff, forall₂_map_right_iff]
      refine h.imp ?_
      rintro ⟨k, i⟩ ⟨k', _⟩ ⟨_, rfl⟩
      rfl
    · rw [dense_trace, dense_trace]
      exact congrArg Outline.trace heq
  refine eq_of_forall₂_lowers h ?_
  have hdepths := congrArg (map Prod.fst) htrace
  rw [trace, trace, map_map, map_map] at hdepths
  exact hdepths

theorem isAllowed_markups (h : Forall₂ Lowers a b)
    (hb : (markups b).isAllowed tags) : (markups a).isAllowed tags := by
  rw [isAllowed, all_eq_true] at hb ⊢
  intro x hx
  have hmem : x.2 ∈ (markups b).map Prod.snd := map_markups h ▸ mem_map_of_mem hx
  obtain ⟨y, hy, heq⟩ := mem_map.mp hmem
  have hallowed : y.2.isAllowed tags := hb y hy
  rw [heq] at hallowed
  exact hallowed

theorem climbs_met (hP : P.IsWellFormed tags u)
    (hw : WellIndented P.inlined.depths) : (trace (P.met?.getD [])).Climbs 0 := by
  have hdense : (trace (P.met?.getD [])).dense = P.inlined.trace := dense_trace _
  rw [Trace.climbs_dense (covered_met hP), hdense]
  exact climbs_trace hw

theorem main_start (hP : P.IsWellFormed tags u)
    (hw : WellIndented P.inlined.depths) (hmain : P.main ≠ []) : ∃ x ∈ P.main.head?, x.1 = 0 := by
  have hclimbs := climbs_met hP hw
  obtain ⟨x, main, hcons⟩ := exists_cons_of_ne_nil hmain
  obtain ⟨parts, hmet, hparts⟩ := exists_met hP
  rw [hcons] at hparts
  rcases hparts with _ | ⟨hexpand, _⟩
  obtain ⟨rest, rfl⟩ := head?_eq_some_iff.mp (expand_head? hexpand)
  rw [hmet] at hclimbs
  exact ⟨x, by rw [hcons]; rfl, Nat.le_zero.mp hclimbs.1⟩

end Program

namespace Document
variable {tags : TagTable} {files : Files} {path u : Text} {terminated : Bool}

theorem compile_program_eq_printing (P : Program) (hu : isUnit u)
    (hread : HasFile files path (sourceText (P.lines u) terminated))
    (hP : P.IsWellFormed tags u) (hun : ∀ x ∈ P.met?.getD [], isUnreserved x.2.written)
    (hw : WellIndented P.inlined.depths) (ha : P.inlined.isAllowed tags) :
    (compile tags files path).Writes (((Forest.ofOutline P.inlined).printing tags 0).text u) := by
  have hclimbs := climbs_met hP hw
  have hdense : (trace (P.met?.getD [])).dense = P.inlined.trace := dense_trace _
  have hblank := Page.balanced_empty
  obtain ⟨q, hfollow, houtput⟩ := follow_printing hu
    (inlined_isPlain hP hun) hw ha
  have hprogram := compile_program P hu hread hP hun hclimbs
  rw [hblank.follow_dense hclimbs (covered_met hP), hdense, hfollow] at hprogram
  exact ⟨hprogram.1, hprogram.2.trans houtput⟩

theorem compile_suite_eq_printing (S : Suite) (hu : isUnit u)
    (hread : HasFile files path (sourceText (S.lines u) terminated))
    (hS : S.IsSound tags u) (hstart : ∃ x ∈ S.main.head?, x.1 = 0)
    (hun : ∀ x ∈ (S.program settled).met?.getD [], isUnreserved x.2.written)
    (hunit : S.methods ≠ [] ∨ WellIndented (S.program settled).inlined.depths)
    (ha : (S.program settled).inlined.isAllowed tags) :
    ((compile tags files path).fault = none ↔ WellIndented (S.program settled).inlined.depths) ∧
      (WellIndented (S.program settled).inlined.depths → (compile tags files path).output =
        ((Forest.ofOutline (S.program settled).inlined).printing tags 0).text u) := by
  have hsuite := compile_suite S hu hread hS hstart hun hunit
  have hplain := inlined_isPlain hS.settled hun
  have hprinted : WellIndented (S.program settled).inlined.depths →
      (compile tags files path).Writes
        (((Forest.ofOutline (S.program settled).inlined).printing tags 0).text u) := by
    intro hindented
    obtain ⟨q, hfollow, houtput⟩ := follow_printing hu hplain hindented ha
    have hcompile := hsuite.1 hindented
    rw [hfollow] at hcompile
    exact ⟨hcompile.1, hcompile.2.trans houtput⟩
  refine ⟨⟨fun hfault => ?_, fun h => (hprinted h).1⟩, fun h => (hprinted h).2⟩
  by_contra hnot
  obtain ⟨g, hg⟩ := hsuite.2 hnot
  rw [hfault] at hg
  cases hg

/-- Loops in methods, each followed by a line of the method that is not nested in it and would not end
the method. The program with the copies in place of the loops compiles. With the loops, each of these
lines is one level less deep than it is written: the program compiles if and only if it is then still
well indented, and it is printed like that. So it compiles to the same output as with the copies in
place of the loops if and only if no method with a loop is ever called. -/
theorem compile_suite_eq_unrolled_iff (tags : TagTable) (u : Text) (S : Suite)
    (terminated terminated' : Bool) (files files' : Files) (path path' : Text)
    (hread : HasFile files path (sourceText (S.lines u) terminated))
    (hread' : HasFile files' path' (sourceText ((S.program Clause.unrolled).lines u) terminated'))
    (hu : isUnit u = true) (hP : (S.program Clause.unrolled).IsWellFormed tags u)
    (hclauses : ∀ d ∈ S.methods, ∀ c ∈ d.clauses, c.IsSound) (hmain : S.main ≠ [])
    (hun : ∀ x ∈ (S.program Clause.unrolled).met?.getD [], isUnreserved x.2.written = true)
    (hw : WellIndented (S.program Clause.unrolled).inlined.depths)
    (ha : (S.program Clause.unrolled).inlined.isAllowed tags = true) :
    (compile tags files' path').fault = none ∧
      ((compile tags files path).fault = none ↔
        WellIndented (S.program Clause.settled).inlined.depths) ∧
      ((compile tags files path).fault = none → (compile tags files path).output =
        ((Forest.ofOutline (S.program Clause.settled).inlined).printing tags 0).text u) ∧
      ((compile tags files path).Writes (compile tags files' path').output ↔
        S.Avoids ((S.program Clause.unrolled).met?.getD [])) := by
  have hS := Suite.isSound_of_unrolled hP hclauses
  obtain ⟨a, b, hmet, hmet', hlowers, hsame⟩ := Suite.met_settled hP hclauses
  have hunrolled := compile_program_eq_printing _ hu hread' hP hun hw ha
  have hcovered := Program.covered_met hS.settled
  have hcovered' := Program.covered_met hP
  have hun' : ∀ x ∈ (S.program Clause.settled).met?.getD [], isUnreserved x.2.written = true := by
    rw [hmet]
    rw [hmet'] at hun
    intro x hx
    obtain ⟨y, hy, hxy⟩ := exists_of_forall₂ (List.Forall₂.flip hlowers) hx
    rw [hxy.2]
    exact hun y hy
  have hplain := Program.inlined_isPlain hS.settled hun'
  have hplain' := Program.inlined_isPlain hP hun
  rw [Program.inlined_eq_markups hmet] at hplain ⊢
  rw [Program.inlined_eq_markups hmet'] at hw ha hplain' hunrolled
  rw [hmet] at hcovered
  rw [hmet'] at hcovered' ⊢
  have hiff := Program.markups_eq_iff hlowers hcovered hcovered'
  -- Without methods there is nothing that teaches the unit, and nothing that is lowered.
  have hunit : S.methods ≠ [] ∨ WellIndented (Program.markups a).depths := by
    by_cases hmethods : S.methods = []
    · refine Or.inr (hiff.mpr (hsame.mpr fun x _ name _ => ?_) ▸ hw)
      rw [Suite.isLooped, Suite.find?, hmethods]
      rfl
    · exact Or.inl hmethods
  have hstart := Program.main_start hP (by rwa [Program.inlined_eq_markups hmet']) hmain
  have hsuite := compile_suite_eq_printing S hu hread hS hstart hun'
    (by rwa [Program.inlined_eq_markups hmet])
    (by rw [Program.inlined_eq_markups hmet]; exact Program.isAllowed_markups hlowers ha)
  rw [Program.inlined_eq_markups hmet] at hsuite
  obtain ⟨hindented, hprinted⟩ := hsuite
  refine ⟨hunrolled.1, hindented, fun hfault => hprinted (hindented.mp hfault), ?_⟩
  change _ ↔ S.Avoids b
  rw [← hsame, ← hiff]
  constructor
  · rintro ⟨hfault, houtput⟩
    have hfits := hindented.mp hfault
    rw [hprinted hfits, hunrolled.2] at houtput
    have hmarks : (Program.markups a).map (·.2.mark) = (Program.markups b).map (·.2.mark) := by
      have hsnd := congrArg (List.map Markup.mark) (Program.map_markups hlowers)
      rwa [List.map_map, List.map_map] at hsnd
    have hdepths := Outline.depths_eq_of_printing hu hplain hplain' hfits hw hmarks houtput
    exact (List.zip_of_prod hdepths (Program.map_markups hlowers)).trans (List.zip_of_prod rfl rfl).symm
  · intro heq
    have hfits : WellIndented (Program.markups a).depths := heq ▸ hw
    refine ⟨hindented.mpr hfits, ?_⟩
    rw [hprinted hfits, hunrolled.2, heq]

def sampleSuite : Suite where
  methods :=
    [⟨"item", some ["t"], true,
        [.line 1 (.markup (.element "li" none true)), .line 2 (.markup (.text [.ref "t"]))]⟩,
      ⟨"list", none, true,
        [.line 1 (.markup (.element "ul" none true)),
          .loop ⟨2, "v", ["a", "b"],
              [(1, .element "li" (some [("id", [.ref "v"])]) false)]⟩
            2 (.call "item" (some [[.char 'c']]) false)]⟩]
  main := [(0, .call "item" (some ["x"]) false), (0, .call "list" none false)]

theorem sampleSuite_isWellFormed : (sampleSuite.program unrolled).IsWellFormed sampleTags "\t" where
  distinct := by decide
  procedures := by decide +kernel
  free := by decide
  bodies := by decide +kernel
  main := by decide
  unreserved := by decide +kernel
  acyclic := acyclic_of_rank (fun name => if name = "list" then 1 else 0) (by decide +kernel)

theorem compile_suite_eq_unrolled_iff_sample :
    (compile sampleTags [("a", sourceText (sampleSuite.lines "\t") true)] "a").output =
        ("<li>\n\tx\n</li>\n<ul>\n\t<li id=\"a\" />\n\t<li id=\"b\" />\n</ul>\n" ++
          "<li>\n\tc\n</li>\n").toList ∧
      (compile sampleTags [("a", sourceText (sampleSuite.lines "\t") true)] "a").output ≠
        (compile sampleTags [("b", sourceText ((sampleSuite.program Clause.unrolled).lines
          "\t") false)] "b").output := by
  obtain ⟨_, hindented, hprinted, hsame⟩ := compile_suite_eq_unrolled_iff sampleTags "\t" sampleSuite
    true false [("a", sourceText (sampleSuite.lines "\t") true)]
    [("b", sourceText ((sampleSuite.program Clause.unrolled).lines "\t") false)]
    "a" "b" (by decide +kernel) (by decide +kernel) (by decide) sampleSuite_isWellFormed
    (by decide +kernel) (by decide) (by decide +kernel) (by decide +kernel) (by decide +kernel)
  have hfault := hindented.mpr (by decide +kernel)
  refine ⟨(hprinted hfault).trans (by decide +kernel), fun heq => ?_⟩
  have hcalled := hsame.mp ⟨hfault, heq⟩ (0, .call "list" none false) (by decide +kernel) "list" rfl
  exact absurd hcalled (by decide)

def compiled (text : String) : Text × Option Fault :=
  let c := compile sampleTags [("a", text.toList)] "a"
  (c.output, c.fault)

/-- The line after a loop in a method is not where it is with the loop unrolled. If it is one level
deep, it does not even belong to the method; if it is another loop, that one comes first; if there is
no such line, the copies come where they cannot be placed; and the loop does not know the parameters of
the method. -/
theorem methodLoop_not_unrolled :
    compiled "def m():\n\tdiv\n\t\tfor $i in [a, b]:\n\t\t\tp\n\t\tq\nm()\n" =
        ("<div>\n\t<p />\n\t<p />\n</div>\n<q />\n".toList, none) ∧
      compiled "def m():\n\tdiv\n\t\tp\n\t\tp\n\t\tq\nm()\n" =
        ("<div>\n\t<p />\n\t<p />\n\t<q />\n</div>\n".toList, none) ∧
      compiled "def m():\n\tdiv\n\tfor $i in [a]:\n\t\tp\n\tq\nm()\n" =
        ("<q />\n<div />\n<p />\n".toList, none) ∧
      compiled "def m():\n\tdiv\n\t\tfor $i in [a]:\n\t\t\tp\n\t\tfor $j in [b]:\n\t\t\tq\n\t\tr\nm()\n" =
        ("<r />\n<div>\n\t<q />\n\t<p />\n</div>\n".toList, none) ∧
      compiled "def m():\n\tdiv\n\t\tfor $i in [a]:\n\t\t\tp\nm()\n" =
        ("\t<p />\n".toList, some .outOfRange) ∧
      compiled "def m($t):\n\tdiv\n\t\tfor $i in [a]:\n\t\t\tp(id=\"$t\")\n\t\tq\nm(x)\n" =
        ("<div>\n".toList, some .stopped) := by
  decide +kernel

end Document
end OutlineMarkup
