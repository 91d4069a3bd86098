import OutlineMarkup.Assignment
import OutlineMarkup.Proofs.Texts

/-!
# Compound assignments in full

A compound operator is a character and an equals sign. Where a line has one equals sign, its target is
what stands before the operator, and in full the line has the target once more behind the sign of
plain assignments.
-/

namespace OutlineMarkup
open List

namespace Text
variable {a b : Text} {c d : Char}

theorem consHead_append {xs : List Text} (h : xs ≠ []) (c : Char) (ys : List Text) :
    consHead c (xs ++ ys) = consHead c xs ++ ys := by
  cases xs with
  | nil => exact absurd rfl h
  | cons x xs => rfl

theorem split_append_pair (hc : c ≠ '=') (a b : Text) :
    split (a ++ c :: '=' :: b) [c, '='] = split a [c, '='] ++ split b [c, '='] := by
  have go : ∀ (a : Text) (k : Nat), k ≤ a.length → splitFrom [c, '='] k (a ++ c :: '=' :: b) =
      splitFrom [c, '='] k a ++ splitFrom [c, '='] 0 b := by
    intro a
    induction a with
    | nil =>
      intro k hk
      obtain rfl := Nat.le_zero.mp hk
      simp [splitFrom]
    | cons d a ih =>
      intro k hk
      cases k with
      | succ k => exact ih k (Nat.le_of_succ_le_succ hk)
      | zero =>
        have hstart : [c, '='].isPrefixOf (d :: (a ++ c :: '=' :: b)) = [c, '='].isPrefixOf (d :: a) := by
          cases a with
          | nil => simp [isPrefixOf, Ne.symm hc]
          | cons x a => simp [isPrefixOf]
        rw [cons_append, splitFrom, splitFrom, hstart]
        split
        · rename_i hcut
          have hone : 1 ≤ a.length := by
            cases a with
            | nil => simp [isPrefixOf] at hcut
            | cons x a => simp
          simp [ih 1 hone]
        · rw [ih 0 (Nat.zero_le _), consHead_append (splitFrom_ne_nil _ _ _)]
  exact go a 0 (Nat.zero_le _)

theorem trimRight_append_sign (a b : Text) :
    trimRight (a ++ ':' :: '=' :: b) = a ++ ':' :: '=' :: trimRight b := by
  have hcut : a ++ ':' :: '=' :: b = (a ++ [':']) ++ '=' :: b := by simp
  rw [hcut, trimRight_append_cons rfl]
  simp

section Pair
variable (hc : c ≠ '=') (ha : '=' ∉ a)
include hc ha

theorem cut?_append_pair : cut? (a ++ c :: '=' :: b) [c, '='] = some (a, b) := by
  induction a with
  | nil => simp [cut?]
  | cons d a ih =>
    have ha' : '=' ∉ a := fun hm => ha (.tail _ hm)
    have hfirst : [c, '='].isPrefixOf (d :: (a ++ c :: '=' :: b)) = false := by
      cases a with
      | nil => simp [isPrefixOf, Ne.symm hc]
      | cons x a =>
        have hx : '=' ≠ x := fun he => ha' (he ▸ mem_cons_self)
        simp [isPrefixOf, hx]
    rw [cons_append, cut?, hfirst, ih ha']
    rfl

variable (hb : '=' ∉ b)
include hb

theorem has_pair_eq_false (hd : d ≠ c) : has (a ++ c :: '=' :: b) [d, '='] = false := by
  rw [has_eq_false_iff]
  intro h
  rcases infix_append_cons (by simp [hd.symm, hc]) h with h | h
  · exact ha (h.subset (by simp))
  · rcases infix_cons_iff.mp h with ⟨r, hr⟩ | h
    · exact hb ((cons.inj hr).2 ▸ mem_cons_self)
    · exact hb (h.subset (by simp))

theorem split_pair : split (a ++ c :: '=' :: b) [c, '='] = [a, b] := by
  rw [split_append_pair hc, split_eq_singleton (has_eq_false_of_not_mem (c := '=') (by simp) ha),
    split_eq_singleton (has_eq_false_of_not_mem (c := '=') (by simp) hb)]
  rfl

theorem replace_pair (new : Text) : replace (a ++ c :: '=' :: b) [c, '='] new = a ++ (new ++ b) := by
  rw [replace, split_pair hc ha hb]
  simp [join]

end Pair
end Text

open Text

namespace Assignment
variable {a b s line : Text} {c : Char} {ops : List (Text × Char)}

/-- The text with each operator written out in turn. -/
def written (target : Text) (ops : List (Text × Char)) (s : Text) : Text :=
  ops.foldl (fun s (op, c) => s.replace op (":= " ++ target ++ [' ', c, ' ', '('])) s

theorem expand_eq (line : Text) : expand line =
    if (written (target line) operators line).count '(' > (written (target line) operators line).count ')'
    then (written (target line) operators line).trimRight ++ ")\n"
    else written (target line) operators line := rfl

/-- Operators are a sign and an equals sign, and not the sign of plain assignments. -/
def ArePairs (ops : List (Text × Char)) : Prop :=
  ∀ x ∈ ops, x.1 = [x.2, '='] ∧ x.2 ≠ ':' ∧ x.2 ≠ '='

theorem arePairs_operators : ArePairs operators := by
  rw [ArePairs]
  decide

theorem has_operator_eq_false {x : Text × Char} (hx : x ∈ operators) (h : s.has [x.2, '='] = false) :
    s.has x.1 = false := by
  rwa [(arePairs_operators x hx).1]

theorem written_of_has (target : Text) (h : ∀ x ∈ ops, s.has x.1 = false) : written target ops s = s := by
  induction ops with
  | nil => rfl
  | cons x ops ih =>
    simp only [written, foldl_cons, replace_eq_self (h x mem_cons_self)]
    exact ih (forall_mem_cons.mp h).2

theorem target_eq {p op : Text} {pre post : List (Text × Char)}
    (hops : operators = pre ++ (op, c) :: post) (hpre : ∀ y ∈ pre, line.has y.1 = false)
    (hp : line.before op = p) (hpost : ∀ y ∈ post, p.has y.1 = false) : target line = p.trim := by
  have hsame : ∀ (ops : List (Text × Char)) (s : Text), (∀ y ∈ ops, s.has y.1 = false) →
      ops.foldl (fun s (op, _) => s.before op) s = s := by
    intro ops s hs
    induction ops with
    | nil => rfl
    | cons y ops ih =>
      obtain ⟨op, c⟩ := y
      rw [foldl_cons]
      dsimp only
      rw [before_eq_self (hs (op, c) mem_cons_self)]
      exact ih (forall_mem_cons.mp hs).2
  rw [target, hops, foldl_append, hsame pre line hpre, foldl_cons]
  dsimp only
  rw [hp, hsame post p hpost]

/-- A line with one assignment sign and no other equals sign is its own full form. -/
theorem written_plain (target : Text) (ha : '=' ∉ a) (hb : '=' ∉ b) :
    written target operators (a ++ ':' :: '=' :: b) = a ++ ':' :: '=' :: b :=
  written_of_has target fun x hx => has_operator_eq_false hx <|
    has_pair_eq_false (by decide) ha hb (arePairs_operators x hx).2.1

section Compound
variable (hc : ([c, '='], c) ∈ operators)
include hc

theorem operators_cut : ∃ pre post, operators = pre ++ ([c, '='], c) :: post ∧ ∀ y ∈ pre, y.2 ≠ c := by
  obtain ⟨pre, post, hops⟩ := append_of_mem hc
  have hnodup : (operators.map (·.2)).Nodup := by decide
  rw [hops, map_append, map_cons] at hnodup
  exact ⟨pre, post, hops, fun y hy => (nodup_append.mp hnodup).2.2 _ (mem_map_of_mem hy) _ mem_cons_self⟩

variable (ha : '=' ∉ a) (hb : '=' ∉ b)
include ha hb

theorem target_compound : target (a ++ c :: '=' :: b) = a.trim := by
  have hne := (arePairs_operators _ hc).2.2
  obtain ⟨pre, post, hops, hpre⟩ := operators_cut hc
  refine target_eq hops (fun y hy => ?_) ?_ fun y hy => ?_
  · exact has_operator_eq_false (by simp [hops, hy]) (has_pair_eq_false hne ha hb (hpre y hy))
  · rw [before, cut?_append_pair hne ha]
    rfl
  · exact has_operator_eq_false (by simp [hops, hy]) (has_eq_false_of_not_mem (c := '=') (by simp) ha)

theorem written_compound {target : Text} (ht : '=' ∉ target) :
    written target operators (a ++ c :: '=' :: b) =
      a ++ ':' :: '=' :: (' ' :: (target ++ ([' ', c, ' ', '('] ++ b))) := by
  obtain ⟨-, -, hne⟩ := arePairs_operators _ hc
  obtain ⟨pre, post, hops, hpre⟩ := operators_cut hc
  have hright : '=' ∉ ' ' :: (target ++ ([' ', c, ' ', '('] ++ b)) := by
    simp [ht, hb, Ne.symm hne]
  have hsplit : ∀ t, written target operators t = written target post
      ((written target pre t).replace [c, '='] (":= " ++ target ++ [' ', c, ' ', '('])) := by
    intro t
    rw [hops]
    simp [written]
  have hreplaced : a ++ ((":= " ++ target ++ [' ', c, ' ', '(']) ++ b) =
      a ++ ':' :: '=' :: (' ' :: (target ++ ([' ', c, ' ', '('] ++ b))) := by simp
  have hbefore : written target pre (a ++ c :: '=' :: b) = a ++ c :: '=' :: b :=
    written_of_has target fun y hy =>
      has_operator_eq_false (by simp [hops, hy]) (has_pair_eq_false hne ha hb (hpre y hy))
  rw [hsplit, hbefore, replace_pair hne ha hb, hreplaced]
  refine written_of_has target fun y hy => ?_
  have hy' : y ∈ operators := by simp [hops, hy]
  exact has_operator_eq_false hy' (has_pair_eq_false (by decide) ha hright (arePairs_operators y hy').2.1)

end Compound

theorem split_expand (ha : '=' ∉ a) (hb : '=' ∉ b)
    (h : written (target line) operators line = a ++ ':' :: '=' :: b) : ∃ b', (expand line).split sign = [a, b'] := by
  rw [expand_eq, h]
  split
  · rw [trimRight_append_sign, append_assoc]
    have hright : '=' ∉ trimRight b ++ ")\n" := by simpa using fun hm => hb (mem_of_mem_trimRight hm)
    exact ⟨_, split_pair (by decide) ha hright⟩
  · exact ⟨b, split_pair (by decide) ha hb⟩

end Assignment
end OutlineMarkup
