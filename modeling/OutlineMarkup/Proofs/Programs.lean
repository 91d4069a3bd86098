import Mathlib.Data.Finset.Card
import Mathlib.Data.List.Forall2
import Mathlib.Logic.Relation
import OutlineMarkup.Proofs.Documents
import OutlineMarkup.Proofs.Items

/-!
# Programs

A program defines methods and goes on with lines that may call them. Carried out, it comes to the
lines that are left when every call is replaced by the body of its method, with the arguments for
the parameters. Where methods do not lead back to themselves the replacement comes to an end.
-/

namespace OutlineMarkup
open List
variable {α β : Type} {name : Text} {p : Procedure} {k : Nat}

/-- A method as it is written. The body is indented, so its depths start from one. -/
structure Procedure where
  name : Text
  parameters : Option (List Text)
  colon : Bool
  body : List (Nat × Item Template)
  deriving Repr, DecidableEq

namespace Procedure

def names (p : Procedure) : List Text := p.parameters.getD []

def signature (p : Procedure) : Text :=
  (Item.call p.name (p.parameters.map (·.map ('$' :: ·))) p.colon).written

def header (p : Procedure) : Text := "def " ++ p.signature

def lines (u : Text) (p : Procedure) : List Text :=
  p.header :: p.body.map fun (k, i) => u.times k ++ (i.map Template.source).written

def binding (p : Procedure) (arguments : List Text) (n : Text) : Text :=
  ((p.names.zip arguments).lookup n).getD []

/-- The body for a call at a depth: its first line is as deep as the call. -/
def inlined (p : Procedure) (k : Nat) (arguments : List Text) : List (Nat × Item Text) :=
  p.body.map fun (j, i) => (k + j - 1, i.map (Template.fill (p.binding arguments)))

/-- Distinct parameters, and a body that starts one level deep and refers to nothing else. -/
@[mk_iff] structure IsWellFormed (p : Procedure) : Prop where
  name : isTagName p.name = true
  distinct : p.names.Nodup
  names : ∀ n ∈ p.names, n.isName = true
  start : ∀ x ∈ p.body.head?, x.1 = 1
  nonempty : p.body ≠ []
  depths : ∀ x ∈ p.body, 1 ≤ x.1
  sound : ∀ x ∈ p.body, x.2.isSound p.names = true

instance (p : Procedure) : Decidable p.IsWellFormed := decidable_of_iff' _ (isWellFormed_iff p)

end Procedure

structure Program where
  procedures : List Procedure
  main : List (Nat × Item Text)
  deriving Repr, DecidableEq

namespace Program

def find? (P : Program) (name : Text) : Option Procedure := P.procedures.find? (·.name == name)

def lines (u : Text) (P : Program) : List Text :=
  P.procedures.flatMap (·.lines u) ++ P.main.map fun (k, i) => u.times k ++ i.written

/-- Elements are not named after methods, and every call has an argument for each parameter. -/
def admits {α : Type} (P : Program) : Item α → Bool
  | .markup m => m.name?.all fun name => (P.find? name).isNone
  | .call name arguments _ =>
    (P.find? name).any fun p => p.names.length == (arguments.getD []).length

def Calls (P : Program) (a b : Text) : Prop :=
  ∃ p ∈ P.procedures, p.name = a ∧ ∃ x ∈ p.body, x.2.callee? = some b

/-- The lines that a line comes to, calls at most `n` deep. The line of a call is kept in front of
those of its body. -/
def expand (P : Program) : Nat → Nat × Item Text → Option (List (Nat × Item Text))
  | _, (k, .markup m) => some [(k, .markup m)]
  | 0, (_, .call _ _ _) => none
  | n + 1, (k, .call name arguments colon) =>
    match P.find? name with
    | none => none
    | some p =>
      ((p.inlined k (arguments.getD [])).mapM (P.expand n)).map fun parts =>
        (k, .call name arguments colon) :: parts.flatten

/-- All lines that come up, calls among them, if calls come to an end. -/
def met? (P : Program) : Option (List (Nat × Item Text)) :=
  (P.main.mapM (P.expand P.procedures.length)).map List.flatten

def inlined (P : Program) : Outline :=
  (P.met?.getD []).filterMap fun (k, i) => i.markup?.map (k, ·)

/-- What a program has to be, for tags and a unit of indentation. -/
structure IsWellFormed (tags : TagTable) (u : Text) (P : Program) : Prop where
  distinct : (P.procedures.map (·.name)).Nodup
  procedures : ∀ p ∈ P.procedures, p.IsWellFormed
  free : ∀ p ∈ P.procedures, tags.has p.name = false
  bodies : ∀ p ∈ P.procedures, ∀ x ∈ p.body, P.admits x.2 = true
  main : ∀ x ∈ P.main, x.2.isPlain = true ∧ P.admits x.2 = true
  unreserved : ∀ l ∈ P.lines u, isUnreserved l = true
  acyclic : ∀ name, ¬ Relation.TransGen P.Calls name name

variable {P : Program} {n k : Nat} {x : Nat × Item Text} {lines : Items}

/-! ## Expansion -/

theorem mapM_eq_some_iff {f : α → Option β} {as : List α} {bs : List β} :
    as.mapM f = some bs ↔ Forall₂ (fun a b => f a = some b) as bs := by
  induction as generalizing bs with
  | nil =>
    rw [mapM_nil, forall₂_nil_left_iff]
    exact ⟨fun h => (Option.some.inj h).symm, fun h => by rw [h]; rfl⟩
  | cons a as ih =>
    rw [mapM_cons]
    constructor
    · intro h
      obtain ⟨b, hb, h⟩ := Option.bind_eq_some_iff.mp h
      obtain ⟨bs', hbs, h⟩ := Option.bind_eq_some_iff.mp h
      obtain rfl := Option.some.inj h
      exact .cons hb (ih.mp hbs)
    · rintro (_ | ⟨hb, hbs⟩)
      rw [hb, ih.mpr hbs]
      rfl

theorem expand_call {arguments : Option (List Text)} {colon : Bool}
    (h : P.expand n (k, .call name arguments colon) = some lines) :
    ∃ n' p parts, n = n' + 1 ∧ P.find? name = some p ∧
      Forall₂ (fun x part => P.expand n' x = some part) (p.inlined k (arguments.getD [])) parts ∧
      lines = (k, .call name arguments colon) :: parts.flatten := by
  cases n with
  | zero => cases h
  | succ n =>
    rw [expand] at h
    cases hp : P.find? name with
    | none =>
      rw [hp] at h
      cases h
    | some p =>
      rw [hp] at h
      obtain ⟨parts, hparts, rfl⟩ := Option.map_eq_some_iff.mp h
      exact ⟨n, p, parts, rfl, rfl, mapM_eq_some_iff.mp hparts, rfl⟩

theorem expand_markup {m : Markup Text} (h : P.expand n (k, .markup m) = some lines) :
    lines = [(k, .markup m)] := by
  cases n <;> exact (Option.some.inj h).symm

theorem expand_induction {Q : Nat → Nat × Item Text → Items → Prop}
    (hmarkup : ∀ n k m, Q n (k, .markup m) [(k, .markup m)])
    (hcall : ∀ n k name arguments colon p parts, P.find? name = some p →
      Forall₂ (Q n) (p.inlined k (arguments.getD [])) parts →
      Q (n + 1) (k, .call name arguments colon) ((k, .call name arguments colon) :: parts.flatten))
    (h : P.expand n x = some lines) : Q n x lines := by
  induction n generalizing x lines with
  | zero =>
    obtain ⟨k, m | ⟨name, arguments, colon⟩⟩ := x
    · obtain rfl := expand_markup h
      exact hmarkup _ k m
    · cases h
  | succ n ih =>
    obtain ⟨k, m | ⟨name, arguments, colon⟩⟩ := x
    · obtain rfl := expand_markup h
      exact hmarkup _ k m
    · obtain ⟨n', p, parts, hn, hp, hparts, rfl⟩ := expand_call h
      obtain rfl : n = n' := by omega
      exact hcall n k name arguments colon p parts hp (hparts.imp fun x part hx => ih hx)

theorem expand_head? (h : P.expand n x = some lines) : lines.head? = some x :=
  expand_induction (Q := fun _ x lines => lines.head? = some x) (fun _ _ _ => rfl)
    (fun _ _ _ _ _ _ _ _ _ => rfl) h

theorem find?_of_mem (hdistinct : (P.procedures.map (·.name)).Nodup)
    (hp : p ∈ P.procedures) : P.find? p.name = some p := by
  cases hfind : P.find? p.name with
  | none =>
    have hnone := find?_eq_none.mp hfind p hp
    simp at hnone
  | some q =>
    have hname : q.name = p.name := by simpa using find?_some hfind
    rw [inj_on_of_nodup_map hdistinct (mem_of_find?_eq_some hfind) hp hname]

theorem find?_some (h : P.find? name = some p) : p ∈ P.procedures ∧ p.name = name :=
  ⟨mem_of_find?_eq_some h, by simpa using List.find?_some h⟩

/-! ## Lines that fit a program -/

def Fits (P : Program) (i : Item Text) : Prop := i.isPlain = true ∧ P.admits i = true

theorem admits_map (f : α → β) (i : Item α) : P.admits (i.map f) = P.admits i := by
  match i with
  | .markup (.element _ _ _) | .markup (.text _) | .call _ none _ => rfl
  | .call _ (some _) _ => simp [Item.map, admits]

theorem Fits.arguments {name : Text} {arguments : Option (List Text)} {colon : Bool} {p : Procedure}
    (h : P.Fits (.call name arguments colon)) (hp : P.find? name = some p) :
    p.names.length = (arguments.getD []).length ∧ ∀ w ∈ arguments.getD [], isBareWord w := by
  obtain ⟨hplain, hadmits⟩ := h
  rw [Item.isPlain, Bool.and_eq_true, all_eq_true] at hplain
  rw [admits, hp] at hadmits
  exact ⟨by simpa using hadmits, hplain.2⟩

end Program

theorem lookup_zip_mem {names arguments : List Text} (hlength : names.length = arguments.length)
    {n : Text} (hn : n ∈ names) : ((names.zip arguments).lookup n).getD [] ∈ arguments := by
  induction names generalizing arguments with
  | nil => cases hn
  | cons m names ih =>
    obtain ⟨a, arguments, rfl⟩ := exists_cons_of_length_pos (l := arguments) (by simp [← hlength])
    rw [zip_cons_cons, lookup_cons]
    cases hm : n == m with
    | true => simp
    | false =>
      have hne : n ≠ m := by simpa using hm
      exact mem_cons_of_mem _ (ih (by simpa using hlength) ((mem_cons.mp hn).resolve_left hne))

namespace Procedure
variable {p : Procedure} {arguments : List Text}

theorem binding_mem (hlength : p.names.length = arguments.length) {n : Text} (hn : n ∈ p.names) :
    p.binding arguments n ∈ arguments := lookup_zip_mem hlength hn

theorem inlined_fits {P : Program} (hp : p.IsWellFormed)
    (hbody : ∀ x ∈ p.body, P.admits x.2) (hlength : p.names.length = arguments.length)
    (hwords : ∀ w ∈ arguments, isBareWord w) : ∀ x ∈ p.inlined k arguments, P.Fits x.2 := by
  intro x hx
  obtain ⟨⟨j, i⟩, hi, rfl⟩ := mem_map.mp hx
  refine ⟨Item.isPlain_fill (hp.sound _ hi) fun n hn => hwords _ (binding_mem hlength hn), ?_⟩
  rw [Program.admits_map]
  exact hbody _ hi

end Procedure

namespace Program
variable {P : Program} {tags : TagTable} {u : Text} {n : Nat} {x : Nat × Item Text}
  {lines : Items}

theorem Fits.inlined (hP : P.IsWellFormed tags u) {k : Nat} {name : Text}
    {arguments : Option (List Text)} {colon : Bool} {p : Procedure}
    (h : P.Fits (.call name arguments colon)) (hp : P.find? name = some p) :
    ∀ x ∈ p.inlined k (arguments.getD []), P.Fits x.2 := by
  obtain ⟨hmem, _⟩ := find?_some hp
  obtain ⟨hlength, hwords⟩ := h.arguments hp
  exact Procedure.inlined_fits (hP.procedures p hmem) (hP.bodies p hmem) hlength hwords

theorem expand_isPlain (hP : P.IsWellFormed tags u) (hx : P.Fits x.2)
    (h : P.expand n x = some lines) : ∀ y ∈ lines, y.2.isPlain := by
  refine expand_induction (Q := fun _ x lines => P.Fits x.2 → ∀ y ∈ lines, y.2.isPlain)
    ?_ ?_ h hx
  · intro _ k m hx y hy
    obtain rfl := mem_singleton.mp hy
    exact hx.1
  · intro _ k name arguments colon p parts hp hparts hx y hy
    rcases mem_cons.mp hy with rfl | hy
    · exact hx.1
    · obtain ⟨part, hpart, hy⟩ := mem_flatten.mp hy
      obtain ⟨a, ha, hQ⟩ := exists_of_forall₂ hparts hpart
      exact hQ (hx.inlined hP hp a ha) y hy

/-- Calls leave no mark. -/
def trace (lines : List (Nat × Item Text)) : Trace := lines.map fun (k, i) => (k, i.markup?)

theorem trace_append (a b : Items) : trace (a ++ b) = trace a ++ trace b := map_append

variable {as : Items} {parts : List (Items)} {b : Text}

theorem covered_flatten (h : Forall₂ (fun _ part => (trace part).Covered) as parts) :
    (trace parts.flatten).Covered := by
  induction h with
  | nil => trivial
  | cons hab _ ih =>
    rw [flatten_cons, trace_append]
    exact Trace.covered_append hab ih

section
variable (h : Forall₂ (fun x part => part.head? = some x) as parts)
include h

theorem head?_flatten : parts.flatten.head? = as.head? := by
  cases h with
  | nil => rfl
  | cons hab _ => rw [flatten_cons, head?_append, hab]; rfl

theorem mem_flatten_of_head? {x : Nat × Item Text} (hx : x ∈ as) : x ∈ parts.flatten := by
  obtain ⟨part, hpart, hhead⟩ := exists_of_forall₂ (Forall₂.flip h) hx
  exact mem_flatten.mpr ⟨part, hpart, mem_of_mem_head? hhead⟩

theorem covered_call (hfirst : ∃ x ∈ as.head?, x.1 = k)
    (hcovered : (trace parts.flatten).Covered) : Trace.Covered ((k, none) :: trace parts.flatten) := by
  obtain ⟨x, hx, hk⟩ := hfirst
  refine ⟨⟨(x.1, x.2.markup?), ?_, hk⟩, hcovered⟩
  rw [trace, head?_map, head?_flatten h, Option.mem_def.mp hx]
  rfl

end

theorem expand_covered (hP : P.IsWellFormed tags u) (h : P.expand n x = some lines) :
    (trace lines).Covered := by
  refine (expand_induction
    (Q := fun _ x lines => lines.head? = some x ∧ (trace lines).Covered) ?_ ?_ h).2
  · intro _ k m
    exact ⟨rfl, trivial⟩
  · intro _ k name arguments colon p parts hp hparts
    have hwf := hP.procedures p (find?_some hp).1
    refine ⟨rfl, covered_call (hparts.imp fun _ _ hQ => hQ.1) ?_
      (covered_flatten (hparts.imp fun _ _ hQ => hQ.2))⟩
    obtain ⟨⟨j, i⟩, body, hbody⟩ := exists_cons_of_ne_nil hwf.nonempty
    obtain rfl : j = 1 := hwf.start (j, i) (by rw [hbody]; rfl)
    rw [Procedure.inlined, hbody]
    exact ⟨_, rfl, rfl⟩

theorem dense_trace (lines : Items) : (trace lines).dense =
      Outline.trace (lines.filterMap fun (k, i) => i.markup?.map (k, ·)) := by
  induction lines with
  | nil => rfl
  | cons x lines ih =>
    obtain ⟨k, m | ⟨name, arguments, colon⟩⟩ := x
    · change (k, some m) :: (trace lines).dense = _
      rw [ih]
      rfl
    · exact ih

/-! ## Calls come to an end -/

theorem acyclic_of_rank (rank : Text → Nat)
    (h : ∀ p ∈ P.procedures, ∀ x ∈ p.body, ∀ b ∈ x.2.callee?, rank b < rank p.name) (name : Text) :
    ¬ Relation.TransGen P.Calls name name := by
  have hdown : ∀ {a b}, Relation.TransGen P.Calls a b → rank b < rank a := by
    intro a b hab
    induction hab with
    | single hcall =>
      obtain ⟨p, hp, rfl, x, hx, hb⟩ := hcall
      exact h p hp x hx _ hb
    | tail _ hcall ih =>
      obtain ⟨p, hp, rfl, x, hx, hb⟩ := hcall
      exact (h p hp x hx _ hb).trans ih
  exact fun hcycle => Nat.lt_irrefl _ (hdown hcycle)

open Classical in
noncomputable def reachable (P : Program) (name : Text) : Finset Text :=
  (P.procedures.map (·.name)).toFinset.filter fun b => Relation.TransGen P.Calls name b

theorem mem_reachable {a : Text} :
    b ∈ P.reachable a ↔ b ∈ P.procedures.map (·.name) ∧ Relation.TransGen P.Calls a b := by
  simp [reachable]

theorem card_reachable_lt (hacyclic : ∀ name, ¬ Relation.TransGen P.Calls name name) {a : Text}
    (hab : P.Calls a b) (hb : b ∈ P.procedures.map (·.name)) :
    (P.reachable b).card < (P.reachable a).card := by
  refine Finset.card_lt_card ((Finset.ssubset_iff_of_subset fun c hc => ?_).mpr ⟨b, ?_, fun h => ?_⟩)
  · rw [mem_reachable] at hc ⊢
    exact ⟨hc.1, .head hab hc.2⟩
  · exact mem_reachable.mpr ⟨hb, .single hab⟩
  · exact hacyclic b (mem_reachable.mp h).2

theorem card_reachable_lt_length (hacyclic : ∀ name, ¬ Relation.TransGen P.Calls name name)
    (hb : b ∈ P.procedures.map (·.name)) : (P.reachable b).card < P.procedures.length := by
  have hlt : (P.reachable b).card < (P.procedures.map (·.name)).toFinset.card := by
    refine Finset.card_lt_card ((Finset.ssubset_iff_of_subset fun c hc => ?_).mpr
      ⟨b, mem_toFinset.mpr hb, fun h => hacyclic b (mem_reachable.mp h).2⟩)
    exact mem_toFinset.mpr (mem_reachable.mp hc).1
  refine hlt.trans_le ((toFinset_card_le _).trans_eq ?_)
  rw [length_map]

theorem mapM_isSome {f : α → Option β} {as : List α} (h : ∀ a ∈ as, (f a).isSome) : (as.mapM f).isSome := by
  induction as with
  | nil => rfl
  | cons a as ih =>
    obtain ⟨b, hb⟩ := Option.isSome_iff_exists.mp (h a mem_cons_self)
    obtain ⟨bs, hbs⟩ := Option.isSome_iff_exists.mp (ih fun c hc => h c (mem_cons_of_mem _ hc))
    rw [mapM_cons, hb, hbs]
    rfl

theorem callee?_map (f : α → β) (i : Item α) : (i.map f).callee? = i.callee? := by
  cases i <;> rfl

theorem Fits.find? {i : Item Text} (h : P.Fits i) (hb : b ∈ i.callee?) : ∃ p, P.find? b = some p := by
  rw [← Option.isSome_iff_exists]
  cases i with
  | markup m => cases hb
  | call name arguments colon =>
    obtain rfl := Option.some.inj hb
    have hadmits := h.2
    rw [admits] at hadmits
    cases hp : P.find? name with
    | none => simp [hp] at hadmits
    | some p => rfl

theorem Fits.mem_names {i : Item Text} (h : P.Fits i) (hb : b ∈ i.callee?) :
    b ∈ P.procedures.map (·.name) := by
  obtain ⟨p, hp⟩ := h.find? hb
  exact mem_map.mpr ⟨p, (find?_some hp).1, (find?_some hp).2⟩

theorem calls_of_mem_inlined (hp : P.find? name = some p)
    {arguments : List Text} (hx : x ∈ p.inlined k arguments) (hb : b ∈ x.2.callee?) : P.Calls name b := by
  obtain ⟨hmem, hname⟩ := find?_some hp
  obtain ⟨⟨j, i⟩, hi, rfl⟩ := mem_map.mp hx
  exact ⟨p, hmem, hname, _, hi, by rwa [callee?_map] at hb⟩

theorem expand_isSome (hP : P.IsWellFormed tags u) (hx : P.Fits x.2)
    (hroom : ∀ b ∈ x.2.callee?, (P.reachable b).card < n) : (P.expand n x).isSome := by
  induction n generalizing x with
  | zero =>
    obtain ⟨k, m | ⟨name, arguments, colon⟩⟩ := x
    · rfl
    · exact absurd (hroom name rfl) (Nat.not_lt_zero _)
  | succ n ih =>
    obtain ⟨k, m | ⟨name, arguments, colon⟩⟩ := x
    · rfl
    · obtain ⟨p, hp⟩ := hx.find? rfl
      rw [expand, hp]
      simp only [Option.isSome_map]
      refine mapM_isSome fun y hy => ih (hx.inlined hP hp y hy) fun b hb => ?_
      have hlt := card_reachable_lt hP.acyclic (calls_of_mem_inlined hp hy hb)
        ((hx.inlined hP hp y hy).mem_names hb)
      have := hroom name rfl
      omega

theorem met?_isSome (hP : P.IsWellFormed tags u) : P.met?.isSome := by
  rw [met?, Option.isSome_map]
  exact mapM_isSome fun x hx => expand_isSome hP (hP.main x hx) fun b hb =>
    card_reachable_lt_length hP.acyclic ((show P.Fits x.2 from hP.main x hx).mem_names hb)

end Program
end OutlineMarkup
