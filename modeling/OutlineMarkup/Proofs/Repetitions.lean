import OutlineMarkup.Proofs.Inlining
import OutlineMarkup.Proofs.MethodLoops
import OutlineMarkup.Proofs.Unrolling

/-!
# Methods that call loops

A method is kept with calls in place of its loops. What a call of the method comes to is what it
comes to if the copies of the bodies stand there instead, but for the calls themselves, which leave
no mark.
-/

namespace OutlineMarkup
open List Compile Program

open Passage (trace_itemsOf copy opened)

/-- A loop in a method. The depths of its body start from one. -/
structure Repetition where
  depth : Nat
  iterator : Text
  items : List Text
  body : List (Nat × Markup Template)
  deriving Repr, DecidableEq

namespace Repetition

def passage (l : Repetition) : Passage := .loop l.depth l.iterator l.items l.body

def copies (l : Repetition) : List (Nat × Item Template) :=
  l.passage.unrolled.map fun (k, m) => (k, (Item.markup m).literal)

def routine (l : Repetition) : Routine := ⟨[l.iterator], false, itemsOf l.body⟩

@[mk_iff] structure IsSound (l : Repetition) : Prop where
  indented : 1 ≤ l.depth
  unrollable : IsUnrollable l.iterator l.items l.body

instance (l : Repetition) : Decidable l.IsSound := decidable_of_iff' _ (isSound_iff l)

variable {l : Repetition}

theorem head?_copies (h : l.IsSound) : ∃ x ∈ l.copies.head?, x.1 = l.depth := by
  obtain ⟨w, items, hitems⟩ := exists_cons_of_ne_nil h.unrollable.items.1
  obtain ⟨⟨j, m⟩, hx, hj⟩ := h.unrollable.start
  obtain ⟨rest, hbody⟩ := head?_eq_some_iff.mp hx
  rw [copies, passage, Passage.unrolled, hitems, hbody]
  refine ⟨_, rfl, ?_⟩
  change l.depth + j - 1 = l.depth
  simp only at hj
  omega

theorem head?_calls (h : l.IsSound) (n : Nat) : ∃ x ∈ (loopCalls n l.depth l.items).head?, x.1 = l.depth := by
  obtain ⟨w, items, hitems⟩ := exists_cons_of_ne_nil h.unrollable.items.1
  rw [loopCalls, hitems]
  exact ⟨_, rfl, rfl⟩

end Repetition

def filledAt (k : Nat) (env : Text → Text) (body : List (Nat × Item Template)) :
    List (Nat × Item Text) :=
  body.map fun (j, i) => (k + j - 1, i.map (Template.fill env))

theorem filledAt_append (k : Nat) (env : Text → Text) (a b : Body) :
    filledAt k env (a ++ b) = filledAt k env a ++ filledAt k env b := map_append

/-- A body with calls in place of loops, and the body with the loops unrolled. -/
inductive Unfolds (ls : List Repetition) :
    List (Nat × Item Template) → List (Nat × Item Template) → Prop
  | nil : Unfolds ls [] []
  | line {b b' : List (Nat × Item Template)} (x : Nat × Item Template) (h : Unfolds ls b b') :
      Unfolds ls (x :: b) (x :: b')
  | loop {b b' : List (Nat × Item Template)} {n : Nat} {l : Repetition} (hl : ls[n]? = some l)
      (h : Unfolds ls b b') : Unfolds ls (loopCalls n l.depth l.items ++ b) (l.copies ++ b')

namespace Unfolds
variable {ls : List Repetition} {b b' : Body} (h : Unfolds ls b b')
include h

theorem mono (ms : List Repetition) : Unfolds (ls ++ ms) b b' := by
  induction h with
  | nil => exact .nil
  | line x _ ih => exact .line x ih
  | loop hl _ ih =>
    refine .loop ?_ ih
    rw [getElem?_append_left (List.getElem?_eq_some_iff.mp hl).1]
    exact hl

theorem append {c c' : Body} (hc : Unfolds ls c c') : Unfolds ls (b ++ c) (b' ++ c') := by
  induction h with
  | nil => exact hc
  | line x _ ih => exact .line x ih
  | loop hl _ ih =>
    rw [append_assoc, append_assoc]
    exact .loop hl ih

theorem forall_mem {Q : Nat × Item Template → Prop} (hb : ∀ x ∈ b', Q x)
    (hcalls : ∀ n l, ls[n]? = some l → (∀ x ∈ l.copies, Q x) → ∀ x ∈ loopCalls n l.depth l.items, Q x) :
    ∀ x ∈ b, Q x := by
  induction h with
  | nil => exact fun x hx => absurd hx not_mem_nil
  | line y _ ih =>
    intro x hx
    rcases mem_cons.mp hx with rfl | hx
    · exact hb x mem_cons_self
    · exact ih (forall_mem_cons.mp hb).2 x hx
  | loop hl _ ih =>
    intro x hx
    rcases mem_append.mp hx with hx | hx
    · exact hcalls _ _ hl (fun z hz => hb z (mem_append_left _ hz)) x hx
    · exact ih (fun z hz => hb z (mem_append_right _ hz)) x hx

theorem head? (hls : ∀ l ∈ ls, l.IsSound) : b.head?.map Prod.fst = b'.head?.map Prod.fst := by
  cases h with
  | nil | line x _ => rfl
  | loop hl _ =>
    have hsound := hls _ (mem_of_getElem? hl)
    obtain ⟨x, hx, hdepth⟩ := Repetition.head?_calls hsound _
    obtain ⟨y, hy, hdepth'⟩ := Repetition.head?_copies hsound
    rw [head?_append, head?_append, Option.mem_def.mp hx, Option.mem_def.mp hy]
    simp [hdepth, hdepth']

end Unfolds

/-! ## What lines come to -/

/-- Lines that leave the same marks on the page as other lines, and use no other words. -/
structure Mirrors (lines lines' : List (Nat × Item Text)) : Prop where
  dense : (Program.trace lines).dense = (Program.trace lines').dense
  covered : (Program.trace lines).Covered
  unreserved : (∀ y ∈ lines', isUnreserved y.2.written = true) → ∀ y ∈ lines, isUnreserved y.2.written = true

theorem Trace.dense_append (t r : Trace) : Trace.dense (t ++ r) = t.dense ++ r.dense := filter_append ..

namespace Mirrors
variable {a a' b b' : Items}

theorem nil : Mirrors [] [] := ⟨rfl, trivial, fun h => h⟩

theorem append (ha : Mirrors a a') (hb : Mirrors b b') : Mirrors (a ++ b) (a' ++ b') := by
  refine ⟨?_, ?_, fun h y hy => ?_⟩
  · rw [trace_append, trace_append, Trace.dense_append, Trace.dense_append, ha.dense, hb.dense]
  · rw [trace_append]
    exact Trace.covered_append ha.covered hb.covered
  · rcases mem_append.mp hy with hy | hy
    · exact ha.unreserved (fun z hz => h z (mem_append_left _ hz)) y hy
    · exact hb.unreserved (fun z hz => h z (mem_append_right _ hz)) y hy

theorem itemsOf (o : Outline) : Mirrors (itemsOf o) (OutlineMarkup.itemsOf o) := by
  refine ⟨rfl, ?_, fun h => h⟩
  rw [trace_itemsOf]
  exact Outline.covered_trace o

end Mirrors

namespace Repetition
variable {l : Repetition} {k n : Nat} {env : Text → Text}

def called (l : Repetition) (n k : Nat) (w : Text) : List (Nat × Item Text) :=
  (k, .call (Compile.loopName n) (some [w]) false) :: itemsOf (Passage.copy k l.iterator l.body w)

theorem filledAt_calls : filledAt k env (loopCalls n l.depth l.items) =
      l.items.map fun w => (k + l.depth - 1, .call (loopName n) (some [w]) false) := by
  rw [filledAt, loopCalls, map_map]
  refine map_congr_left fun w _ => ?_
  change (k + l.depth - 1, Item.map _ (Item.literal _)) = _
  rw [Item.fill_literal]

theorem filledAt_copies (h : l.IsSound) : filledAt k env l.copies =
      itemsOf (l.items.flatMap (copy (k + l.depth - 1) l.iterator l.body)) := by
  rw [filledAt, copies, itemsOf, passage, Passage.unrolled, map_map, map_flatMap, map_flatMap]
  refine flatMap_congr fun w _ => ?_
  rw [copy, copy, map_map, map_map]
  refine map_congr_left fun x hx => ?_
  have hdepth : k + (l.depth + x.1 - 1) - 1 = k + l.depth - 1 + x.1 - 1 := by
    have := h.indented
    have := h.unrollable.depths x hx
    omega
  change (k + (l.depth + x.1 - 1) - 1, Item.map _ (Item.literal _)) = _
  rw [Item.fill_literal, hdepth]
  rfl

theorem mirrors_called (h : l.IsSound) : Mirrors (l.items.flatMap (l.called n k))
      (itemsOf (l.items.flatMap (copy k l.iterator l.body))) := by
  have htrace : trace (l.items.flatMap (l.called n k)) =
      l.items.flatMap fun w => (k, none) :: (copy k l.iterator l.body w).trace := by
    rw [trace, map_flatMap]
    exact flatMap_congr fun w _ => congrArg (cons _) (trace_itemsOf _)
  refine ⟨?_, ?_, fun hun y hy => ?_⟩
  · rw [htrace, trace_itemsOf, Outline.dense_trace]
    exact Passage.dense_trace (.loop k l.iterator l.items l.body)
  · rw [htrace]
    exact (Passage.covered_trace (p := .loop k l.iterator l.items l.body) h.unrollable).2
  · obtain ⟨w, hw, hy⟩ := mem_flatMap.mp hy
    rcases mem_cons.mp hy with rfl | hy
    · exact isUnreserved_loopCall n (h.unrollable.items.2 w hw).2
    · obtain ⟨x, hx, rfl⟩ := mem_map.mp hy
      exact hun _ (mem_map.mpr ⟨x, mem_flatMap.mpr ⟨w, hw, hx⟩, rfl⟩)

end Repetition

/-- The routines are the loops, and the methods of a program with calls in place of loops. -/
structure Routines.Carries (ls : List Repetition) (T : Program) (R : Routines) : Prop where
  loop : ∀ {n l}, ls[n]? = some l → R (Compile.loopName n) = some l.routine
  method : ∀ {a t}, T.find? a = some t →
    ∃ b, R a = some ⟨t.names, true, b⟩ ∧ Unfolds ls b t.body
  only : ∀ {a r}, R a = some r →
    (∃ n l, ls[n]? = some l ∧ a = Compile.loopName n ∧ r = l.routine) ∨
    ∃ t b, T.find? a = some t ∧ r = ⟨t.names, true, b⟩ ∧ Unfolds ls b t.body

namespace Program
variable {T : Program} {m : Nat}

theorem flatten_expand_itemsOf {o : Outline} {parts : List (Items)}
    (h : Forall₂ (fun x part => T.expand m x = some part) (itemsOf o) parts) : parts.flatten = itemsOf o := by
  induction o generalizing parts with
  | nil =>
    cases h
    rfl
  | cons x o ih =>
    rcases h with _ | ⟨hx, h⟩
    obtain rfl := expand_markup hx
    rw [flatten_cons, ih h]
    rfl

end Program

namespace Routines.Carries
variable {ls : List Repetition} {T : Program} {R : Routines} {tags : TagTable} {u : Text} {m : Nat}
  {α : Type}

theorem comes_body (hR : R.Carries ls T) (hls : ∀ l ∈ ls, l.IsSound) {k : Nat} {env : Text → Text}
    (hline : ∀ x lines, T.expand m x = some lines → ∃ lines', R.Comes (m + 1) x lines' ∧ Mirrors lines' lines)
    {b b' : Body} (h : Unfolds ls b b') {parts : List (Items)}
    (hparts : Forall₂ (fun x part => T.expand m x = some part) (filledAt k env b') parts) :
    ∃ parts', Forall₂ (R.Comes (m + 1)) (filledAt k env b) parts' ∧ Mirrors parts'.flatten parts.flatten := by
  induction h generalizing parts with
  | nil =>
    cases hparts
    exact ⟨[], .nil, .nil⟩
  | line x _ ih =>
    rcases hparts with _ | ⟨hx, hparts⟩
    obtain ⟨lines, hcomes, hmirrors⟩ := hline _ _ hx
    obtain ⟨parts', hcomes', hmirrors'⟩ := ih hparts
    exact ⟨lines :: parts', .cons hcomes hcomes', hmirrors.append hmirrors'⟩
  | @loop b b' n l hl _ ih =>
    have hsound := hls l (mem_of_getElem? hl)
    rw [filledAt_append] at hparts
    obtain ⟨copies, parts, rfl, hcopies, hparts⟩ := forall₂_append_left hparts
    obtain ⟨parts', hcomes, hmirrors⟩ := ih hparts
    rw [Repetition.filledAt_copies hsound] at hcopies
    refine ⟨l.items.map (l.called n (k + l.depth - 1)) ++ parts', ?_, ?_⟩
    · rw [filledAt_append, Repetition.filledAt_calls]
      refine rel_append ?_ hcomes
      rw [forall₂_map_left_iff, forall₂_map_right_iff]
      have hopen : R (opened n l.depth l.iterator l.items l.body).name =
          some (opened n l.depth l.iterator l.items l.body).routine := hR.loop hl
      exact forall₂_same.mpr fun w _ => Passage.comes_call hopen m _ w
    · rw [flatten_append, flatten_append, flatten_expand_itemsOf hcopies, ← flatMap_def]
      exact (Repetition.mirrors_called hsound).append hmirrors

theorem comes (hR : R.Carries ls T) (hls : ∀ l ∈ ls, l.IsSound) (hT : T.IsWellFormed tags u)
    {x : Nat × Item Text} {lines : Items} (h : T.expand m x = some lines) :
    ∃ lines', R.Comes (m + 1) x lines' ∧ Mirrors lines' lines := by
  induction m generalizing x lines with
  | zero =>
    obtain ⟨k, i | ⟨name, arguments, colon⟩⟩ := x
    · obtain rfl := Program.expand_markup h
      exact ⟨_, rfl, Mirrors.itemsOf [(k, i)]⟩
    · cases h
  | succ m ih =>
    obtain ⟨k, i | ⟨name, arguments, colon⟩⟩ := x
    · obtain rfl := Program.expand_markup h
      exact ⟨_, rfl, Mirrors.itemsOf [(k, i)]⟩
    · obtain ⟨m', t, parts, hm, ht, hparts, rfl⟩ := Program.expand_call h
      obtain rfl : m = m' := by omega
      obtain ⟨b, hr, hunfolds⟩ := hR.method ht
      obtain ⟨parts', hcomes, hmirrors⟩ := hR.comes_body hls (fun x lines => ih) hunfolds hparts
      refine ⟨_, ⟨_, parts', hr, hcomes, rfl⟩, ?_⟩
      refine ⟨hmirrors.dense, ?_, fun hun y hy => ?_⟩
      · have hwf := hT.procedures t (Program.find?_some ht).1
        have hstart : b.head?.map Prod.fst = some 1 := by
          obtain ⟨x, body, hbody⟩ := exists_cons_of_ne_nil hwf.nonempty
          rw [hunfolds.head? hls, hbody]
          exact congrArg some (hwf.start x (by rw [hbody]; rfl))
        obtain ⟨⟨j, i⟩, hhead, rfl⟩ := Option.map_eq_some_iff.mp hstart
        obtain ⟨rest, rfl⟩ := head?_eq_some_iff.mp hhead
        exact Program.covered_call (hcomes.imp fun _ _ => Comes.head?) ⟨_, rfl, rfl⟩ hmirrors.covered
      · rcases mem_cons.mp hy with rfl | hy
        · exact hun _ mem_cons_self
        · exact hmirrors.unreserved (forall_mem_cons.mp hun).2 y hy

/-! ## Soundness -/

theorem ne_loopName (hT : T.IsWellFormed tags u) {a : Text} {t : Procedure} (ht : T.find? a = some t)
    (n : Nat) : a ≠ loopName n := by
  obtain ⟨hmem, rfl⟩ := Program.find?_some ht
  intro heq
  have hname := isAlphanumeric_of_isTagName (hT.procedures t hmem).name
  rw [heq, isAlphanumeric_loopName] at hname
  cases hname

variable (hR : R.Carries ls T)
include hR

theorem admits_markup {p : α → Bool} {m : Markup α}
    (hm : m.isMadeOf p) (h : T.admits (.markup m)) : R.Admits (.markup m) := by
  intro name hname
  have halpha := Markup.isMadeOf_name hm name hname
  rw [admits, Option.mem_def.mp hname] at h
  cases hr : R name with
  | none => rfl
  | some r =>
    rcases hR.only hr with ⟨n, l, _, rfl, _⟩ | ⟨t, b, ht, _⟩
    · rw [isAlphanumeric_loopName] at halpha
      cases halpha
    · simp [ht] at h

theorem admits_call {name : Text} {arguments : Option (List α)}
    {colon : Bool} (h : T.admits (.call name arguments colon)) : R.Admits (.call name arguments colon) := by
  rw [admits] at h
  cases ht : T.find? name with
  | none => simp [ht] at h
  | some t =>
    obtain ⟨b, hr, _⟩ := hR.method ht
    have hlength : t.names.length = (arguments.getD []).length := by simpa [ht] using h
    exact ⟨_, hr, hlength⟩

theorem admits_template {names : List Text} {i : Item Template}
    (hi : i.isSound names) (h : T.admits i) : R.Admits i := by
  cases i with
  | markup m => exact hR.admits_markup hi h
  | call name arguments colon => exact hR.admits_call h

theorem admits_item {i : Item Text} (hi : i.isPlain) (h : T.admits i) : R.Admits i := by
  cases i with
  | markup m => exact hR.admits_markup (show m.isPlain from hi) h
  | call name arguments colon => exact hR.admits_call h

end Routines.Carries

theorem Repetition.isSound_routine {l : Repetition} (h : l.IsSound) : l.routine.IsSound := by
  have hl := h.unrollable
  refine ⟨nodup_singleton _, by simpa [routine] using hl.name.1, fun x hx => ?_, fun x hx => ?_,
    fun x hx => ?_⟩ <;> obtain ⟨y, hy, rfl⟩ := mem_map.mp hx
  · exact hl.depths y hy
  · exact hl.fillable y hy
  · exact hl.source y hy

/-- The body of a routine calls another one. -/
def Routines.Calls (R : Routines) (a b : Text) : Prop :=
  ∃ r, R a = some r ∧ ∃ x ∈ r.body, x.2.callee? = some b

namespace Routines.Carries
variable {ls : List Repetition} {T : Program} {R : Routines} {tags : TagTable} {u : Text}

theorem calls (hR : R.Carries ls T) {a b : Text} (h : R.Calls a b) :
    (∃ t, T.find? a = some t) ∧ ((∃ n, b = loopName n) ∨ T.Calls a b) := by
  obtain ⟨r, hr, x, hx, hb⟩ := h
  rcases hR.only hr with ⟨n, l, _, _, rfl⟩ | ⟨t, body, ht, rfl, hunfolds⟩
  · obtain ⟨y, _, rfl⟩ := mem_map.mp hx
    cases hb
  · obtain ⟨hmem, hname⟩ := Program.find?_some ht
    refine ⟨⟨t, ht⟩, hunfolds.forall_mem (Q := fun x => ∀ c, x.2.callee? = some c →
      (∃ n, c = loopName n) ∨ T.Calls a c) (fun y hy c hc => ?_)
      (fun n l _ _ y hy c hc => ?_) x hx b hb⟩
    · exact Or.inr ⟨t, hmem, hname, y, hy, hc⟩
    · obtain ⟨w, _, rfl⟩ := mem_map.mp hy
      cases hc
      exact Or.inl ⟨n, rfl⟩

theorem acyclic (hR : R.Carries ls T) (hT : T.IsWellFormed tags u) (a : Text) :
    ¬ Relation.TransGen R.Calls a a := by
  have hlead : ∀ {b}, Relation.TransGen R.Calls a b →
      (∃ n, b = loopName n) ∨ Relation.TransGen T.Calls a b := by
    intro b hab
    induction hab with
    | single h => exact (hR.calls h).2.imp id .single
    | tail _ h ih =>
      obtain ⟨⟨t, ht⟩, hcall⟩ := hR.calls h
      refine hcall.imp id fun hbc => .tail (ih.resolve_left ?_) hbc
      rintro ⟨n, hn⟩
      exact ne_loopName hT ht n hn
  intro hcycle
  obtain ⟨b, hab, _⟩ := Relation.TransGen.head'_iff.mp hcycle
  obtain ⟨⟨t, ht⟩, _⟩ := hR.calls hab
  rcases hlead hcycle with ⟨n, hn⟩ | hcycle
  · exact ne_loopName hT ht n hn
  · exact hT.acyclic a hcycle

theorem isSound (hR : R.Carries ls T) (hls : ∀ l ∈ ls, l.IsSound) (hT : T.IsWellFormed tags u)
    (hcopies : ∀ l ∈ ls, ∀ x ∈ l.copies, T.admits x.2) : R.IsSound (Relation.TransGen R.Calls) where
  sound {a r} hr := by
    rcases hR.only hr with ⟨n, l, hl, _, rfl⟩ | ⟨t, b, ht, rfl, hunfolds⟩
    · exact Repetition.isSound_routine (hls l (mem_of_getElem? hl))
    · obtain ⟨hmem, _⟩ := Program.find?_some ht
      have hwf := hT.procedures t hmem
      have hword : ∀ (n : Nat) (l : Repetition), ls[n]? = some l → ∀ w ∈ l.items, isBareWord w ∧ isUnreserved w :=
        fun n l hl => (hls l (mem_of_getElem? hl)).unrollable.items.2
      refine ⟨hwf.distinct, hwf.names, ?_, ?_, ?_⟩
      · refine hunfolds.forall_mem hwf.depths fun n l hl _ x hx => ?_
        obtain ⟨w, _, rfl⟩ := mem_map.mp hx
        exact (hls l (mem_of_getElem? hl)).indented
      · refine hunfolds.forall_mem (Q := fun x => x.2.isSound t.names)
          (hwf.sound) fun n l hl _ x hx => ?_
        obtain ⟨w, hw, rfl⟩ := mem_map.mp hx
        exact Item.isSound_literal _ (isPlain_loopCall n (hword n l hl w hw).1)
      · refine hunfolds.forall_mem (Q := fun x => isUnreserved (x.2.map Template.source).written)
          (fun x hx => hT.body_unreserved hmem hx) fun n l hl _ x hx => ?_
        obtain ⟨w, hw, rfl⟩ := mem_map.mp hx
        rw [Item.source_literal]
        exact isUnreserved_loopCall n (hword n l hl w hw).2
  admits {a r} hr := by
    rcases hR.only hr with ⟨n, l, hl, _, rfl⟩ | ⟨t, b, ht, rfl, hunfolds⟩
    · intro x hx
      obtain ⟨y, hy, rfl⟩ := mem_map.mp hx
      have hsound := (hls l (mem_of_getElem? hl)).unrollable
      obtain ⟨w, items, hitems⟩ := exists_cons_of_ne_nil hsound.items.1
      -- The copy for the first item is a line of the program with the same name.
      have hcopy := hcopies l (mem_of_getElem? hl)
        (l.depth + y.1 - 1, Item.literal (.markup (y.2.map (Template.fill fun n =>
          if n = l.iterator then w else [])))) (mem_map.mpr ⟨_, mem_flatMap.mpr
            ⟨w, by rw [hitems]; exact mem_cons_self, mem_map.mpr ⟨y, hy, rfl⟩⟩, rfl⟩)
      refine hR.admits_template (hsound.fillable y hy) ?_
      rw [Item.literal, Program.admits_map] at hcopy
      rw [← hcopy, ← Program.admits_map (Template.fill _)]
      rfl
    · obtain ⟨hmem, _⟩ := Program.find?_some ht
      refine hunfolds.forall_mem (Q := fun x => R.Admits x.2) (fun x hx => ?_) fun n l hl _ x hx => ?_
      · exact hR.admits_template ((hT.procedures t hmem).sound x hx)
          (hT.bodies t hmem x hx)
      · obtain ⟨w, _, rfl⟩ := mem_map.mp hx
        exact ⟨_, hR.loop hl, rfl⟩
  calls hr x hx b hb := .single ⟨_, hr, x, hx, hb⟩
  apart {a b r r' n} hab hr _ hown := by
    obtain ⟨c, hac, _⟩ := Relation.TransGen.head'_iff.mp hab
    obtain ⟨⟨t, ht⟩, _⟩ := hR.calls hac
    obtain ⟨body, hr', _⟩ := hR.method ht
    rw [hr] at hr'
    cases hr'
    cases hown

end Routines.Carries
end OutlineMarkup
