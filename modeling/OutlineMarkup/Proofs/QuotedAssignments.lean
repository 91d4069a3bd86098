import OutlineMarkup.Proofs.Assignments
import OutlineMarkup.Proofs.Undeclared

/-!
# Compound assignments inside quotes

A compound operator inside a text in quotes makes the line an assignment. Its target then starts with
the opening quote, so the value in full has one quote too many on the left of the operator and is no
expression: such a line is rejected, whatever else the text holds.
-/

namespace OutlineMarkup
open List Text Assignment
variable {c : Char} {b : Text}

namespace Text
variable {a b s t : Text} {o : Char}

theorem eq_of_split_eq_singleton (ho : o ≠ '=') {p : Text} (h : split s [o, '='] = [p]) :
    p = s ∧ s.has [o, '='] = false := by
  have hnot : s.has [o, '='] = false := by
    rw [← Bool.not_eq_true, has_iff_isInfix]
    rintro ⟨a, b, rfl⟩
    have hcut : a ++ [o, '='] ++ b = a ++ o :: '=' :: b := by simp
    rw [hcut, split_append_pair ho] at h
    have hlength := congrArg length h
    have ha := length_pos_of_ne_nil (splitFrom_ne_nil [o, '='] 0 a)
    have hb := length_pos_of_ne_nil (splitFrom_ne_nil [o, '='] 0 b)
    simp only [length_append, length_singleton, split] at hlength
    omega
  rw [split_eq_singleton hnot] at h
  exact ⟨(cons.inj h).1.symm, hnot⟩

theorem replace_first {old : Text} (hne : old ≠ []) (h : s.has old) (new : Text) :
    ∃ r, s = s.before old ++ (old ++ r) ∧ s.replace old new = s.before old ++ (new ++ r.replace old new) := by
  induction s with
  | nil =>
    rw [has_iff_isInfix, infix_nil] at h
    exact absurd h hne
  | cons c s ih =>
    by_cases hstart : old.isPrefixOf (c :: s)
    · obtain ⟨r, hr⟩ := isPrefixOf_iff_prefix.mp hstart
      obtain ⟨d, old, rfl⟩ := exists_cons_of_ne_nil hne
      obtain ⟨rfl, rfl⟩ := cons.inj hr
      refine ⟨r, by simp [before, cut?], ?_⟩
      rw [replace_cons, if_pos hstart]
      simp [before, cut?]
    · have hs : has s old := by
        rw [has_iff_isInfix] at h ⊢
        rcases infix_cons_iff.mp h with hp | hi
        · exact absurd hp (mt isPrefixOf_iff_prefix.mpr hstart)
        · exact hi
      obtain ⟨r, hcut, hreplace⟩ := ih hs
      have hbefore : before (c :: s) old = c :: before s old := by
        obtain ⟨⟨x, y⟩, hxy⟩ := Option.isSome_iff_exists.mp hs
        simp [before, cut?, hstart, hxy]
      refine ⟨r, ?_, ?_⟩
      · rw [hbefore, cons_append, ← hcut]
      · rw [replace_cons, if_neg hstart, hbefore, hreplace]
        rfl

theorem replace_append_sign (ho : o ≠ ':' ∧ o ≠ '=') (a b new : Text) :
    replace (a ++ ':' :: '=' :: b) [o, '='] new =
      replace a [o, '='] new ++ ':' :: '=' :: replace b [o, '='] new := by
  induction hn : a.length using Nat.strong_induction_on generalizing a with
  | _ n ih =>
    cases a with
    | nil =>
      have hcolon : [o, '='].isPrefixOf (':' :: '=' :: b) = false := by simp [isPrefixOf, ho.1]
      have hequals : [o, '='].isPrefixOf ('=' :: b) = false := by simp [isPrefixOf, ho.2]
      rw [nil_append, replace_cons, hcolon, if_neg (by decide), replace_cons, hequals, if_neg (by decide)]
      rfl
    | cons c a =>
      have hstart : [o, '='].isPrefixOf (c :: (a ++ ':' :: '=' :: b)) = [o, '='].isPrefixOf (c :: a) := by
        cases a with
        | nil | cons d a => simp [isPrefixOf]
      rw [cons_append, replace_cons, replace_cons, hstart]
      split
      · rename_i hcut
        obtain ⟨d, a, rfl⟩ : ∃ d a', a = d :: a' := by
          cases a with
          | nil => simp [isPrefixOf] at hcut
          | cons d a => exact ⟨d, a, rfl⟩
        have hrest := ih a.length (by simp at hn; omega) a rfl
        simpa using hrest
      · rw [ih a.length (by simp at hn; omega) a rfl]
        rfl

theorem trim_append_cons {space t : Text} (hspace : ∀ d ∈ space, isBlank d)
    (hc : isBlank c = false) : trim (space ++ c :: t) = c :: trimRight t := by
  have hleft : trimLeft (space ++ c :: t) = c :: t := by
    rw [trimLeft, dropWhile_append_of_pos hspace, dropWhile_cons_of_neg (by simp [hc])]
  rw [trim, hleft]
  exact trimRight_append_cons hc [] t

end Text

/-! ## Writing operators out -/

namespace Assignment

theorem ArePairs.tail {x : Text × Char} {ops : List (Text × Char)} (h : ArePairs (x :: ops)) :
    ArePairs ops := (forall_mem_cons.mp h).2

variable {ops : List (Text × Char)} {target s : Text}

theorem written_append_sign (target : Text) (h : ArePairs ops) (a b : Text) :
    written target ops (a ++ ':' :: '=' :: b) =
      written target ops a ++ ':' :: '=' :: written target ops b := by
  induction ops generalizing a b with
  | nil => rfl
  | cons x ops ih =>
    obtain ⟨op, c⟩ := x
    obtain ⟨hop, hne⟩ := h _ mem_cons_self
    simp only at hop hne
    subst hop
    have hreplace := replace_append_sign hne a b (":= " ++ target ++ [' ', c, ' ', '('])
    simp only [written, foldl_cons] at ih ⊢
    rw [hreplace]
    exact ih h.tail _ _

theorem written_first (target : Text) (h : ArePairs ops) (hs : ∃ x ∈ ops, s.has x.1) :
    ∃ pre x post r, ops = pre ++ x :: post ∧ (∀ y ∈ pre, s.has y.1 = false) ∧ s = s.before x.1 ++ (x.1 ++ r) ∧
      written target ops s = written target post (s.before x.1) ++ ':' :: '=' ::
        written target post (' ' :: (target ++ [' ', x.2, ' ', '('] ++
          r.replace x.1 (":= " ++ target ++ [' ', x.2, ' ', '(']))) := by
  induction ops with
  | nil => simp at hs
  | cons x ops ih =>
    obtain ⟨op, c⟩ := x
    obtain ⟨hop, hne⟩ := h _ mem_cons_self
    simp only at hop hne
    subst hop
    by_cases hx : s.has [c, '=']
    · obtain ⟨r, hcut, hreplace⟩ := replace_first (cons_ne_nil _ _) hx
        (":= " ++ target ++ [' ', c, ' ', '('])
      refine ⟨[], _, ops, r, rfl, by simp, hcut, ?_⟩
      have hsign := written_append_sign target h.tail (s.before [c, '='])
        (' ' :: (target ++ [' ', c, ' ', '('] ++
          r.replace [c, '='] (":= " ++ target ++ [' ', c, ' ', '('])))
      rw [← hsign]
      simp only [written, foldl_cons, hreplace]
      simp
    · rw [Bool.not_eq_true] at hx
      obtain ⟨pre, y, post, r, hops, hpre, hcut, hwritten⟩ := ih h.tail (by
        obtain ⟨y, hy, hhas⟩ := hs
        rcases mem_cons.mp hy with rfl | hy
        · rw [hx] at hhas
          cases hhas
        · exact ⟨y, hy, hhas⟩)
      refine ⟨([c, '='], c) :: pre, y, post, r, by rw [hops]; rfl, ?_, hcut, ?_⟩
      · intro z hz
        rcases mem_cons.mp hz with rfl | hz
        · exact hx
        · exact hpre z hz
      · rw [← hwritten]
        simp [written, replace_eq_self hx]

/-- Where writing out leaves no assignment sign there was no operator. -/
theorem written_eq_self (h : ArePairs ops) (hs : (written target ops s).has sign = false) :
    written target ops s = s ∧ ∀ x ∈ ops, s.has x.1 = false := by
  by_cases hop : ∃ x ∈ ops, s.has x.1
  · obtain ⟨_, x, _, _, _, _, _, hwritten⟩ := written_first target h hop
    rw [hwritten] at hs
    have hsign : ∀ a b : Text, (a ++ ':' :: '=' :: b).has sign := by
      intro a b
      rw [has_iff_isInfix]
      exact ⟨a, b, by simp [sign]⟩
    rw [hsign] at hs
    cases hs
  · have hnone : ∀ x ∈ ops, s.has x.1 = false := by
      intro x hx
      rw [← Bool.not_eq_true]
      exact fun hhas => hop ⟨x, hx, hhas⟩
    exact ⟨written_of_has target hnone, hnone⟩

end Assignment

/-! ## A text and a parenthesis are no expression -/

namespace Expression
variable {w : Text}

theorem textBody_append_quote (hw : ∀ c ∈ ['"', '\\', '\n'], c ∉ w) (r : Text) :
    textBody ['"'] (w ++ '"' :: r) = some (w, r) := by
  induction w with
  | nil =>
    rw [nil_append, textBody]
    · simp
    · rintro c s ⟨⟩
  | cons c w ih =>
    have hrest := ih fun d hd hm => hw d hd (.tail _ hm)
    have hne : ∀ d ∈ ['"', '\\', '\n'], d ≠ c := fun d hd he => hw d hd (he ▸ mem_cons_self)
    have hquote : '"' ≠ c := hne _ (by simp)
    have hfeed : (c == '\n') = false := beq_eq_false_iff_ne.mpr (hne '\n' (by simp)).symm
    rw [cons_append, textBody]
    · simp [hquote, hfeed, hrest]
    · rintro d s hd _
      exact hne '\\' (by simp) hd.symm

theorem unescapeFrom_eq_self (hw : '\\' ∉ w) : unescapeFrom 0 w = .ok w := by
  induction w with
  | nil => rfl
  | cons c w ih =>
    have hc : (c != '\\') := bne_iff_ne.mpr fun he => hw (he ▸ mem_cons_self)
    rw [unescapeFrom.eq_def]
    dsimp only
    rw [if_pos hc, ih fun hm => hw (.tail _ hm)]
    rfl

theorem tokens_unclosed (hne : w ≠ []) (hw : ∀ c ∈ ['"', '\\', '\n', '\r'], c ∉ w) :
    tokens ('"' :: (w ++ ['"', ')'])) = .ok [.text w, .sign [')']] := by
  have hbody : textBody ['"'] (w ++ ['"', ')']) = some (w, [')']) :=
    textBody_append_quote (fun c hc => hw c (mem_append_left ['\r'] hc)) [')']
  have hunify : unifyLines ('"' :: (w ++ ['"', ')'])) = '"' :: (w ++ ['"', ')']) :=
    unifyLines_eq_self (by simp [hw '\r' (by simp)])
  have hlong : ['"', '"'].isPrefixOf (w ++ ['"', ')']) = false := by
    obtain ⟨c, w, rfl⟩ := exists_cons_of_ne_nil hne
    have hc : '"' ≠ c := fun he => hw '"' (by simp) (he ▸ mem_cons_self)
    simp [isPrefixOf, hc]
  have hquoted : quotedText false ('"' :: (w ++ ['"', ')'])) = .ok (.text w, [')']) := by
    simp only [quotedText, hlong, Bool.false_eq_true, if_false, hbody,
      unescapeFrom_eq_self (hw '\\' (by simp))]
    rfl
  have hnext : nextToken ('"' :: (w ++ ['"', ')'])) = .ok (.text w, [')']) := by
    rw [← hquoted]
    rfl
  have hfrom : ∀ n, tokensFrom (n + 4) 0 false ('"' :: (w ++ ['"', ')'])) = .ok [.text w, .sign [')']] := by
    intro n
    simp only [tokensFrom]
    rw [hnext]
    rfl
  have hlength : ('"' :: (w ++ ['"', ')']) : Text).length + 1 = w.length + 4 := by simp
  have hstart : ('"' :: (w ++ ['"', ')']) : Text).dropWhile (fun c => c == ' ' || c == '\t') =
      '"' :: (w ++ ['"', ')']) := rfl
  rw [tokens, hunify, hstart, hlength]
  exact hfrom w.length

theorem result_unclosed (hne : w ≠ []) (hw : ∀ c ∈ ['"', '\\', '\n', '\r'], c ∉ w) :
    result ('"' :: (w ++ ['"', ')'])) = .error .malformed := by
  rw [result, compute, Expr.read, tokens_unclosed hne hw]
  rfl

end Expression

/-! ## The assignment in full -/

/-- Printable characters that neither quote, refer, escape nor enclose. -/
def isTextChar (c : Char) : Bool := ' ' ≤ c && c ≤ '~' && !"\"'$\\[]()".toList.contains c

theorem eq_append_of_append_eq {a op left m right : Text} (hne : op ≠ [])
    (hleft : ∀ c ∈ op, c ∉ left) (hright : ∀ c ∈ op, c ∉ right) (h : a ++ (op ++ b) = left ++ (m ++ right)) :
    ∃ m₁ m₂, a = left ++ m₁ ∧ b = m₂ ++ right ∧ m = m₁ ++ (op ++ m₂) := by
  obtain ⟨m₁, ha, hrest⟩ : ∃ m₁, a = left ++ m₁ ∧ m ++ right = m₁ ++ (op ++ b) := by
    rcases append_eq_append_iff.mp h with ⟨l, hl, hrest⟩ | ⟨m₁, ha, hrest⟩
    · -- Nothing of the left side can be a part of the operator.
      obtain ⟨c, op, rfl⟩ := exists_cons_of_ne_nil hne
      cases l with
      | nil => exact ⟨[], by simpa using hl.symm, by simpa using hrest.symm⟩
      | cons d l =>
        obtain ⟨rfl, _⟩ := cons.inj hrest
        exact absurd (hl ▸ by simp) (hleft c mem_cons_self)
    · exact ⟨m₁, ha, hrest⟩
  obtain ⟨z, hm, hrest⟩ : ∃ z, m = m₁ ++ z ∧ op ++ b = z ++ right := by
    rcases append_eq_append_iff.mp hrest with ⟨z, hz, hright'⟩ | ⟨z, hm, hrest⟩
    · obtain ⟨c, op, rfl⟩ := exists_cons_of_ne_nil hne
      exact absurd (hright' ▸ by simp) (hright c mem_cons_self)
    · exact ⟨z, hm, hrest⟩
  rcases append_eq_append_iff.mp hrest with ⟨m₂, hz, hb⟩ | ⟨y, hop, hy⟩
  · exact ⟨m₁, m₂, ha, hb, by rw [hm, hz]⟩
  · cases y with
    | nil => exact ⟨m₁, [], ha, by simpa using hy.symm, by rw [hm, hop]; simp⟩
    | cons d y => exact absurd (hy ▸ by simp) (hright d (hop ▸ by simp))

namespace Assignment
variable {space t e x value a : Text}

theorem split_eq_pair (h : (a ++ ':' :: '=' :: b).split sign = [x, value]) :
    a.has sign = false ∧ b.has sign = false ∧ value = b := by
  have hcut : (a ++ ':' :: '=' :: b).split sign = a.split sign ++ b.split sign :=
    split_append_pair (by decide) a b
  rw [hcut] at h
  obtain ⟨p, ps, hp⟩ := exists_cons_of_ne_nil (splitFrom_ne_nil sign 0 a)
  obtain ⟨q, qs, hq⟩ := exists_cons_of_ne_nil (splitFrom_ne_nil sign 0 b)
  have ha : a.split sign = p :: ps := hp
  have hb : b.split sign = q :: qs := hq
  have hlength := congrArg length h
  rw [ha, hb] at h
  simp only [ha, hb, length_append, length_cons, length_nil] at hlength
  obtain rfl : ps = [] := length_eq_zero_iff.mp (by omega)
  obtain rfl : qs = [] := length_eq_zero_iff.mp (by omega)
  obtain ⟨_, hnota⟩ := eq_of_split_eq_singleton (by decide) ha
  obtain ⟨rfl, hnotb⟩ := eq_of_split_eq_singleton (by decide) hb
  simp only [cons_append, nil_append, cons.injEq, and_true] at h
  exact ⟨hnota, hnotb, h.2.symm⟩

theorem has_sign_trimRight (h : (b.trimRight ++ ")\n").has sign = false) : b.has sign = false := by
  rw [has_eq_false_iff] at h ⊢
  rintro ⟨p, q, rfl⟩
  refine h ⟨p, trimRight q ++ ")\n", ?_⟩
  have hcut : p ++ sign ++ q = p ++ ':' :: '=' :: q := by simp [sign]
  rw [hcut, trimRight_append_sign]
  simp [sign]

theorem replace_eq_self_of_has {r old new : Text} (hne : old ≠ []) (hnew : new.has sign)
    (h : (a ++ r.replace old new).has sign = false) : r.replace old new = r := by
  refine replace_eq_self ?_ _
  rw [← Bool.not_eq_true]
  intro hr
  obtain ⟨r', -, hreplace⟩ := replace_first hne hr new
  have hhas : (a ++ r.replace old new).has sign := by
    refine has_of_isInfix hnew ?_
    rw [hreplace]
    exact ⟨a ++ r.before old, r'.replace old new, by simp⟩
  rw [hhas] at h
  cases h

theorem expand_unclosed {line : Text} (hopening : '(' ∈ written (target line) operators line)
    (hclosing : ')' ∉ written (target line) operators line) :
    expand line = (written (target line) operators line).trimRight ++ ")\n" := by
  have hcount := count_pos_iff.mpr hopening
  rw [expand_eq, if_pos]
  rw [count_eq_zero.mpr hclosing]
  exact hcount

/-- If an expanded line has one assignment sign, it comes of the first operator, and what stands before the
operator is the target. -/
theorem written_of_split {line : Text} (hop : ∃ op ∈ operators, line.has op.1)
    (hsplit : (expand line).split sign = [x, value]) :
    ∃ c r, ([c, '='], c) ∈ operators ∧ line = line.before [c, '='] ++ ([c, '='] ++ r) ∧
      target line = (line.before [c, '=']).trim ∧ written (target line) operators line =
        line.before [c, '='] ++ ':' :: '=' :: ' ' :: (target line ++ [' ', c, ' ', '('] ++ r) := by
  obtain ⟨pre, ⟨op, c⟩, post, r, hoperators, hpre, hcut, hwritten⟩ :=
    written_first (target line) arePairs_operators hop
  have hmem : (op, c) ∈ operators := by rw [hoperators]; simp
  have hpost : ArePairs post := fun y hy => arePairs_operators y (by rw [hoperators]; simp [hy])
  obtain ⟨hpair, -, -⟩ := arePairs_operators _ hmem
  simp only at hpair hcut hwritten
  subst hpair
  -- Whether or not a parenthesis is added, the two parts are free of further operators.
  have hparts : ∀ a b : Text, written (target line) operators line = a ++ ':' :: '=' :: b →
      a.has sign = false ∧ b.has sign = false := by
    intro a b h
    rw [expand_eq, h] at hsplit
    split at hsplit
    · rw [trimRight_append_sign, append_assoc] at hsplit
      exact ⟨(split_eq_pair hsplit).1, has_sign_trimRight (split_eq_pair hsplit).2.1⟩
    · exact ⟨(split_eq_pair hsplit).1, (split_eq_pair hsplit).2.1⟩
  obtain ⟨hleft, hright⟩ := hparts _ _ hwritten
  obtain ⟨hsame, hnone⟩ := written_eq_self hpost hleft
  obtain ⟨hsame', -⟩ := written_eq_self hpost hright
  have hrest : r.replace [c, '='] (":= " ++ target line ++ [' ', c, ' ', '(']) = r := by
    rw [hsame'] at hright
    refine replace_eq_self_of_has (a := ' ' :: (target line ++ [' ', c, ' ', '('])) (by simp) ?_ hright
    rw [has_iff_isInfix]
    exact ⟨[], ' ' :: (target line ++ [' ', c, ' ', '(']), by simp [sign]⟩
  rw [hsame, hsame', hrest] at hwritten
  exact ⟨c, r, hmem, hcut, target_eq hoperators hpre rfl hnone, hwritten⟩

theorem exists_cut {r : Text} (hspace : ∀ c ∈ space, isBlank c) (he : LineEnd e) (hc : ([c, '='], c) ∈ operators)
    (h : a ++ ([c, '='] ++ r) = space ++ '"' :: (t ++ '"' :: e)) :
    ∃ t₁ t₂ : Text, a = space ++ ['"'] ++ t₁ ∧ r = t₂ ++ '"' :: e ∧ t = t₁ ++ ([c, '='] ++ t₂) := by
  have hsigns : ∀ op ∈ operators, ∀ d ∈ op.1, d ≠ '"' ∧ d ≠ '\n' ∧ isBlank d = false := by decide
  have hd := hsigns _ hc
  rw [append_cons] at h
  refine eq_append_of_append_eq (by simp) (fun d hd' hm => ?_) (fun d hd' hm => ?_) h
  · rcases mem_append.mp hm with hm | hm
    · exact absurd (hspace d hm) (by rw [(hd d hd').2.2]; decide)
    · exact (hd d hd').1 (mem_singleton.mp hm)
  · rcases mem_cons.mp hm with hm | hm
    · exact (hd d hd').1 hm
    · exact he.not_mem (hd d hd').2.1 hm

/-- What is assigned starts with the quote that opens the text, and ends with the one that closes it
and a parenthesis. -/
theorem value_of_split (hspace : ∀ c ∈ space, isBlank c) (ht : ∀ c ∈ t, isTextChar c)
    (he : LineEnd e) (hop : isCompound t)
    (hsplit : (expand (space ++ '"' :: (t ++ '"' :: e))).split sign = [x, value]) :
    ∃ t₁ t₂ c, t = t₁ ++ ([c, '='] ++ t₂) ∧
      value.trim = '"' :: ((t₁.trimRight ++ ([' ', c, ' ', '('] ++ t₂)) ++ ['"', ')']) := by
  generalize hline : space ++ '"' :: (t ++ '"' :: e) = line at hsplit
  have hhas : ∃ op ∈ operators, line.has op.1 := by
    obtain ⟨op, hop, hhas⟩ := any_eq_true.mp hop
    refine ⟨op, hop, has_of_isInfix hhas ?_⟩
    rw [← hline]
    exact ⟨space ++ ['"'], '"' :: e, by simp⟩
  obtain ⟨c, r, hc, hcut, htarget, hwritten⟩ := written_of_split hhas hsplit
  obtain ⟨t₁, t₂, hbefore, rfl, rfl⟩ := exists_cut hspace he hc (hcut.symm.trans hline.symm)
  have hname : target line = '"' :: t₁.trimRight := by
    rw [htarget, hbefore, append_assoc]
    exact trim_append_cons hspace rfl
  refine ⟨t₁, t₂, c, rfl, ?_⟩
  rw [hbefore, hname] at hwritten
  have hclosing : ')' ∉ written (target line) operators line := by
    have hleft : ')' ∉ space := not_mem_of_all hspace (by decide)
    have hsign : ')' ≠ c := (ne_of_class (ht c (by simp)) (by decide)).symm
    have hfirst : ')' ∉ t₁ := fun hm => ne_of_class (ht ')' (by simp [hm])) (by decide) rfl
    have hsecond : ')' ∉ t₂ := fun hm => ne_of_class (ht ')' (by simp [hm])) (by decide) rfl
    have htrimmed : ')' ∉ t₁.trimRight := fun hm => hfirst (mem_of_mem_trimRight hm)
    have hlast : ')' ∉ e := he.not_mem (by decide)
    rw [hname, hwritten]
    simp [hleft, hsign, hfirst, hsecond, htrimmed, hlast]
  rw [expand_unclosed (hname ▸ hwritten ▸ by simp) hclosing, hname, hwritten, trimRight_append_sign,
    append_assoc] at hsplit
  have hend : trimRight e = [] := by
    rcases he with rfl | rfl <;> rfl
  have hlast : ' ' :: ('"' :: t₁.trimRight ++ [' ', c, ' ', '('] ++ (t₂ ++ '"' :: e)) =
      (' ' :: ('"' :: t₁.trimRight ++ [' ', c, ' ', '('] ++ t₂)) ++ '"' :: e := by simp
  have hvalue := (split_eq_pair hsplit).2.2
  rw [hlast, trimRight_append_cons rfl, hend] at hvalue
  have hsolid : Text.Solid ('"' :: ((t₁.trimRight ++ ([' ', c, ' ', '('] ++ t₂)) ++ ['"', ')'])) :=
    ⟨⟨'"', rfl, rfl⟩, ⟨')', by simp [getLast?_cons], rfl⟩⟩
  have hvalue' : value = [' '] ++ ('"' :: ((t₁.trimRight ++ ([' ', c, ' ', '('] ++ t₂)) ++ ['"', ')']) ++
      ['\n']) := by
    rw [hvalue]
    simp
  rw [hvalue']
  exact trim_append_solid (by decide) (by decide) hsolid

end Assignment

theorem Assignment.hasMark_value {t₁ t₂ : Text}
    (h : (t₁ ++ ([c, '='] ++ t₂)).has Call.expressionMark = false) :
    (t₁.trimRight ++ ([' ', c, ' ', '('] ++ t₂)).has Call.expressionMark = false := by
  rw [has_eq_false_iff] at h ⊢
  intro hin
  have hcut : t₁.trimRight ++ ([' ', c, ' ', '('] ++ t₂) =
      t₁.trimRight ++ ' ' :: ([c] ++ ' ' :: ([] ++ '(' :: t₂)) := by simp
  rw [hcut] at hin
  rcases infix_append_cons (by decide) hin with hin | hin
  · have hstart : t₁.trimRight <:+: t₁ := (trimRight_isPrefix t₁).isInfix
    exact h ((hin.trans hstart).trans ⟨[], [c, '='] ++ t₂, by simp⟩)
  rcases infix_append_cons (by decide) hin with hin | hin
  · have hp := hin.subset (a := 'p') (by decide)
    have hy := hin.subset (a := 'y') (by decide)
    rw [mem_singleton] at hp hy
    exact absurd (hp.trans hy.symm) (by decide)
  rcases infix_append_cons (by decide) hin with hin | hin
  · exact absurd (infix_nil.mp hin) (by decide)
  · exact h (hin.trans ⟨t₁ ++ [c, '='], [], by simp⟩)

/-- A text in quotes with a parenthesis behind it stays as it is, and is no expression. -/
theorem Compile.compute_unclosed {w : Text} (hne : w ≠ [])
    (hw : ∀ c ∈ ['"', '\\', '\n', '\r', '$', '['], c ∉ w) (hmark : w.has Call.expressionMark = false)
    (s : Session) :
    (resolve ('"' :: (w ++ ['"', ')'])) []).runFrom s = (.ok ('"' :: (w ++ ['"', ')'])), s) ∧
      Arithmetic.compute ('"' :: (w ++ ['"', ')'])) =
        .error (.rejected (.notArithmetic (trim ('"' :: (w ++ ['"', ')']))))) := by
  constructor
  · have hpython : has ('"' :: (w ++ ['"', ')'])) Call.expressionMark = false := by
      rw [has_eq_false_iff] at hmark ⊢
      intro hin
      refine hmark (infix_of_infix_append_right (b := ['"', ')']) (by decide) (by decide) ?_)
      exact infix_of_infix_append_left (a := ['"']) (by decide) (by decide) hin
    have hdollar : '$' ∉ '"' :: (w ++ ['"', ')']) := by simp [hw '$' (by simp)]
    have hbracket : '[' ∉ '"' :: (w ++ ['"', ')']) := by simp [hw '[' (by simp)]
    exact resolve_unchanged (allFrom_eq_nil hdollar none) (.inl hpython) hbracket
  · rw [Arithmetic.compute, Expression.result_unclosed hne fun c hc => hw c (mem_append_left ['$', '['] hc)]

theorem Compile.assignCompound_quoted {space t e : Text} (hspace : ∀ c ∈ space, isBlank c)
    (ht : ∀ c ∈ t, isTextChar c) (he : LineEnd e) (hop : isCompound t)
    (hmark : t.has Call.expressionMark = false) (s : Session) :
    ∃ f, ((assignCompound (space ++ '"' :: (t ++ '"' :: e))).runFrom s).1 = .error f := by
  rcases hsplit : (expand (space ++ '"' :: (t ++ '"' :: e))).split sign with
    _ | ⟨x, _ | ⟨value, _ | ⟨z, zs⟩⟩⟩
  · rw [assignCompound, hsplit]
    exact ⟨_, rfl⟩
  · rw [assignCompound, hsplit]
    exact ⟨_, rfl⟩
  · rw [assignCompound, hsplit]
    dsimp only
    obtain ⟨t₁, t₂, c, rfl, hvalue⟩ := value_of_split hspace ht he hop hsplit
    have hmem : ∀ d ∈ t₁.trimRight ++ ([' ', c, ' ', '('] ++ t₂), isTextChar d ∨ d = '(' := by
      intro d hd
      simp only [mem_append, mem_cons, not_mem_nil, or_false] at hd
      rcases hd with hd | (rfl | rfl | rfl | rfl) | hd
      · exact .inl (ht d (by simp [mem_of_mem_trimRight hd]))
      · exact .inl rfl
      · exact .inl (ht d (by simp))
      · exact .inl rfl
      · exact .inr rfl
      · exact .inl (ht d (by simp [hd]))
    have hne : t₁.trimRight ++ ([' ', c, ' ', '('] ++ t₂) ≠ [] := by simp
    have hmark := hasMark_value hmark
    generalize t₁.trimRight ++ ([' ', c, ' ', '('] ++ t₂) = w at hvalue hmem hne hmark
    have hsign : ∀ d ∈ ['"', '\\', '\n', '\r', '$', '['], d ∉ w := by
      have hclass : ∀ d ∈ ['"', '\\', '\n', '\r', '$', '['], isTextChar d = false ∧ d ≠ '(' := by decide
      intro d hd hm
      rcases hmem d hm with h | h
      · rw [(hclass d hd).1] at h
        cases h
      · exact (hclass d hd).2 h
    obtain ⟨hrun, hcompute⟩ := compute_unclosed hne hsign hmark s
    simp only [hvalue, Action.runFrom_bind, hrun, hcompute, Action.runFrom_liftM]
    exact ⟨_, rfl⟩
  · rw [assignCompound, hsplit]
    exact ⟨_, rfl⟩

end OutlineMarkup
