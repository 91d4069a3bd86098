import OutlineMarkup.Proofs.Lines

/-!
# Lines that declare nothing

A line is put to a row of tests before it is taken for markup, and most of them look for a word or a
sign anywhere in it. The module says what is left of a line in which none of the tests finds anything.
Points do not matter as long as there are no parentheses, since every call has some.
-/

namespace OutlineMarkup
open Action Bool

namespace Call
variable {s : Text}

theorem afterParentheses?_eq_none (h : '(' ∉ s) : afterParentheses? s = none := by
  unfold afterParentheses?
  split
  · exact absurd List.mem_cons_self h
  · rfl

theorem afterFirstParentheses?_eq_none (h : '(' ∉ s) : afterFirstParentheses? s = none := by
  induction s with
  | nil => rfl
  | cons c s ih =>
    rw [afterFirstParentheses?, afterParentheses?_eq_none h, ih fun hm => h (List.mem_cons_of_mem _ hm)]
    simp

theorem afterExpression?_eq_none (h : '(' ∉ s) : afterExpression? s = none := by
  unfold afterExpression?
  split
  · exact afterFirstParentheses?_eq_none fun hm => h (List.mem_of_mem_drop hm)
  · rfl

theorem mem_of_afterName? {r : Text} {c : Char} (h : afterName? s = some r) (hc : c ∈ r) : c ∈ s := by
  rw [afterName?] at h
  split at h
  · cases h
    exact (List.dropWhile_suffix _).subset hc
  · cases h

theorem afterEngineCall?_eq_none (h : '(' ∉ s) : afterEngineCall? s = none := by
  rw [afterEngineCall?]
  cases hname : afterName? s with
  | none => rfl
  | some r =>
    have hr : '(' ∉ r := fun hm => h (mem_of_afterName? hname hm)
    rw [Option.bind_eq_bind, Option.bind_some]
    split
    · rename_i t
      cases hmethod : afterName? t with
      | none => rfl
      | some q =>
        exact afterParentheses?_eq_none fun hm => hr (List.mem_cons_of_mem _ (mem_of_afterName? hmethod hm))
    · rfl

theorem findFrom_eq_nil {after? : Text → Option Text} (h : ∀ t, t <:+ s → after? t = none)
    (p : Option Char) : findFrom after? 0 p s = [] := by
  induction s generalizing p with
  | nil => rfl
  | cons c s ih =>
    have hs : ∀ p, findFrom after? 0 p s = [] := fun p =>
      ih (fun t ht => h t (ht.trans (List.suffix_cons c s))) p
    rw [findFrom, h _ (List.suffix_refl _), hs]
    simp

theorem expressions_eq_nil (h : '(' ∉ s) : expressions s = [] :=
  findFrom_eq_nil (fun _ ht => afterExpression?_eq_none fun hm => h (ht.subset hm)) none

theorem engineCalls_eq_nil (h : '(' ∉ s) : engineCalls s = [] :=
  findFrom_eq_nil (fun _ ht => afterEngineCall?_eq_none fun hm => h (ht.subset hm)) none

theorem computeExpressions_eq_self (h : '(' ∉ s) : computeExpressions s = .ok s := by
  rw [computeExpressions, expressions_eq_nil h]
  rfl

end Call

namespace Compile

/-- None of the tests finds a declaration, an assignment, a loop or a method in a line. -/
structure Undeclared (line : Text) : Prop where
  verbatim : declaresVerbatim line.trim = false
  loop : isLoopStart line.trim = false
  method : isMethodStart line = false
  sign : line.trim.has Assignment.sign = false
  compound : Assignment.isCompound line = false
  imports : "import ".toList.isPrefixOf line = false
  engine : line.has "TemplateEngine" = false
  mark : line ≠ endMark

variable {handle : Handler} {s : Session} {line : Text}

theorem dottedLine_run (hparen : '(' ∉ line) (depth : Nat) :
    (dottedLine depth line).runFrom s = (.ok (some line.trim), s) := by
  have htrim : '(' ∉ line.trim := fun hm => hparen (Text.mem_of_mem_trim hm)
  have hengine : (engineLine depth line.trim).runFrom s = (.ok line.trim, s) := by
    rw [engineLine, Call.engineCalls_eq_nil htrim]
    rfl
  have happend : line.trim.has ".append(" = false := Text.has_eq_false_of_not_mem (c := '(') (by decide) htrim
  have hcreate : line.trim.has "create(" = false := Text.has_eq_false_of_not_mem (c := '(') (by decide) htrim
  have hleft : (if (line.trim.has ".append(" || line.trim.has "create(") then do
      defineEngineMethod line.trim
      return none
      else return some (← engineLine depth line.trim) : Compile (Option Text)).runFrom s =
      (.ok (some line.trim), s) := by
    simp only [happend, hcreate, Bool.or_self, Bool.false_eq_true, if_false]
    rw [runFrom_bind_ok hengine]
    rfl
  rw [dottedLine]
  split
  · rw [Call.computeExpressions_eq_self hparen]
    exact hleft
  · exact hleft

namespace Undeclared
variable (hcalls : '.' ∉ line.trim ∨ '(' ∉ line)
include hcalls

theorem declarationLine_run (h : Undeclared line) (depth : Nat) :
    (declarationLine handle depth line).runFrom s = (.ok (some line.trim), s) := by
  have hmark : (line == endMark) = false := beq_eq_false_iff_ne.mpr h.mark
  rw [declarationLine]
  simp only [h.sign, h.compound, h.imports, h.engine, hmark, false_eq_true, if_false]
  split
  · rename_i hpoint
    exact dottedLine_run (hcalls.resolve_left fun hnot => hnot ((Text.hasChar_iff _ _).mp hpoint)) depth
  · rfl

theorem plainLine_run (h : Undeclared line)
    (hloops : s.loops = []) (hdefining : s.defining = none) (depth : Nat) (space : Text) :
    (plainLine handle depth space line).runFrom s = (markupLine handle depth space line.trim).runFrom s := by
  have hdef := Session.isDefining_eq_false hdefining
  simp [plainLine, runFrom_bind, h.verbatim, h.loop, h.method, hloops, hdef, h.declarationLine_run hcalls]

theorem plainLine_edge (h : Undeclared line)
    (hloops : s.loops = []) (hdepth : (depthOf line).runFrom s = (.ok 0, s)) (depth : Nat) (space : Text) :
    (plainLine handle depth space line).runFrom s =
      (markupLine handle depth space line.trim).runFrom s.endDefinition := by
  cases hdefining : s.defining with
  | none => rw [h.plainLine_run hcalls hloops hdefining, Session.endDefinition_eq hdefining]
  | some name =>
    have hdef := Session.isDefining_eq_true hdefining
    simp [plainLine, methodLine, runFrom_bind, h.verbatim, hdef, hdepth, h.method, h.declarationLine_run hcalls]

end Undeclared

theorem resolve_unchanged {t : Text} (hrefs : Reference.all t = [])
    (hcalls : t.has Call.expressionMark = false ∨ '(' ∉ t) (hbracket : '[' ∉ t) :
    (resolve t []).runFrom s = (.ok t, s) := by
  have hcompute : (if t.has Call.expressionMark then Call.computeExpressions t else .ok t) = .ok t := by
    rcases hcalls with hmark | hparen
    · rw [hmark]
      rfl
    · rw [Call.computeExpressions_eq_self hparen, ite_self]
  have hresolve : Reference.resolve s.globals t [] = .ok t := by
    rw [Reference.resolve, hrefs]
    exact hcompute
  have hpair : t.has "][" = false := Text.has_eq_false_of_not_mem (c := '[') (by decide) hbracket
  have hindex := arrayIndex_eq_self hpair
  simp [resolve, runFrom_bind, hresolve, hindex]

end Compile
end OutlineMarkup
