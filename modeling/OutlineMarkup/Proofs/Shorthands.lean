import OutlineMarkup.Proofs.Formulas

/-!
# Shorthands in a text

A shorthand is spelled with decimal numbers and colons between brackets. It has one opening bracket, at
its start, and one closing bracket, at its end, so two shorthands of a text never overlap, and a list
written in the place of one is no part of another. Main statement: of a text that is cut at its
shorthands of words, each of them is written in full, and the rest stays as it is; no shorthand is left.
-/

namespace OutlineMarkup
open List Text Option
variable {c : Char} {a : Spelled} {p : Sections}

/-- A decimal number as it is spelled, with or without a minus sign. -/
structure Numeral where
  negative : Bool
  digits : Text
  nonempty : digits ≠ []
  decimal : ∀ c ∈ digits, c.isDigit = true

namespace Numeral

def text (n : Numeral) : Text := if n.negative then '-' :: n.digits else n.digits

def value (n : Numeral) : Int :=
  if n.negative then -(Nat.ofDigitChars 10 n.digits 0 : Int) else Nat.ofDigitChars 10 n.digits 0

theorem digitsValue_eq (s : Text) : digitsValue s = Nat.ofDigitChars 10 s 0 := by
  unfold digitsValue Nat.ofDigitChars
  simp [Nat.mul_comm]

theorem mem_text {n : Numeral} (h : c ∈ n.text) : (c.isDigit || c == '-') := by
  unfold text at h
  split at h
  · rcases mem_cons.mp h with rfl | h
    · rfl
    · simp [n.decimal c h]
  · simp [n.decimal c h]

theorem not_mem_text (n : Numeral) (hc : (c.isDigit || c == '-') = false) : c ∉ n.text :=
  not_mem_of_all (fun _ hd => mem_text hd) hc

end Numeral

namespace Shorthand

/-! ## Reading numbers -/

theorem number?_minus (s : Text) : number? ('-' :: s) = if (s.takeWhile Char.isDigit).isEmpty then none
    else some (-(digitsValue (s.takeWhile Char.isDigit) : Int), s.dropWhile Char.isDigit) := rfl

variable {s r t : Text}

theorem number?_unsigned (h : s.head? ≠ some '-') : number? s =
    if (s.takeWhile Char.isDigit).isEmpty then none
    else some ((digitsValue (s.takeWhile Char.isDigit) : Int), s.dropWhile Char.isDigit) := by
  rw [number?]
  · rfl
  · rintro r rfl
    exact h rfl

theorem number?_text (n : Numeral) (hr : ∀ c ∈ r.head?, c.isDigit = false) :
    number? (n.text ++ r) = some (n.value, r) := by
  have hstop : r.takeWhile Char.isDigit = [] ∧ r.dropWhile Char.isDigit = r := by
    cases r with
    | nil => exact ⟨rfl, rfl⟩
    | cons c r =>
      have hc := hr c rfl
      exact ⟨takeWhile_cons_of_neg (by simp [hc]), dropWhile_cons_of_neg (by simp [hc])⟩
  have htake : (n.digits ++ r).takeWhile Char.isDigit = n.digits := by
    rw [takeWhile_append_of_pos n.decimal, hstop.1, append_nil]
  have hdrop : (n.digits ++ r).dropWhile Char.isDigit = r := by
    rw [dropWhile_append_of_pos n.decimal, hstop.2]
  have hne : n.digits.isEmpty = false := isEmpty_eq_false_iff.mpr n.nonempty
  unfold Numeral.text Numeral.value
  cases n.negative with
  | true =>
    rw [if_pos rfl, if_pos rfl, cons_append, number?_minus, htake, hdrop, hne, Numeral.digitsValue_eq]
    rfl
  | false =>
    have hhead : (n.digits ++ r).head? ≠ some '-' := by
      rw [head?_append_of_ne_nil _ n.nonempty]
      intro hm
      exact absurd (n.decimal _ (mem_of_mem_head? hm)) (by decide)
    rw [if_neg Bool.false_ne_true, if_neg Bool.false_ne_true, number?_unsigned hhead, htake, hdrop, hne,
      Numeral.digitsValue_eq]
    rfl

theorem exists_numeral {v : Int} (h : number? s = some (v, r)) :
    ∃ n : Numeral, s = n.text ++ r ∧ n.value = v := by
  have hdigits : ∀ t : Text, ∀ c ∈ t.takeWhile Char.isDigit, c.isDigit := fun t c hc => mem_takeWhile_imp hc
  by_cases hminus : s.head? = some '-'
  · obtain ⟨t, rfl⟩ := head?_eq_some_iff.mp hminus
    rw [number?_minus] at h
    split at h
    · cases h
    · rename_i hne
      obtain ⟨rfl, rfl⟩ := Prod.mk.inj (some.inj h)
      refine ⟨⟨true, t.takeWhile Char.isDigit, by simpa using hne, hdigits t⟩, ?_, ?_⟩
      · exact congrArg ('-' :: ·) takeWhile_append_dropWhile.symm
      · rw [Numeral.digitsValue_eq]
        rfl
  · rw [number?_unsigned hminus] at h
    split at h
    · cases h
    · rename_i hne
      obtain ⟨rfl, rfl⟩ := Prod.mk.inj (some.inj h)
      refine ⟨⟨false, s.takeWhile Char.isDigit, by simpa using hne, hdigits s⟩, ?_, ?_⟩
      · exact takeWhile_append_dropWhile.symm
      · rw [Numeral.digitsValue_eq]
        rfl

/-! ## Spelling -/

/-- A shorthand as it is spelled: the first number, the bound, and steps of which the last one counts. -/
structure Spelled where
  first : Numeral
  bound : Numeral
  steps : List Numeral

def stepsText (steps : List Numeral) : Text := steps.flatMap fun n => ':' :: n.text

namespace Spelled

def body (a : Spelled) : Text := a.first.text ++ ':' :: (a.bound.text ++ stepsText a.steps)

def text (a : Spelled) : Text := '[' :: (a.body ++ [']'])

def step (a : Spelled) : Int := (a.steps.getLast?.map Numeral.value).getD 1

def meaning (a : Spelled) : Shorthand := ⟨a.first.value, a.bound.value, a.step⟩

def full (a : Spelled) : Text := '[' :: (Text.join ", " (a.meaning.numbers.map Text.ofInt) ++ [']'])

/-- No number is long, and the list is not too long for a word to count it. -/
def isBounded (a : Spelled) : Bool := a.meaning.isShort && a.meaning.count < 9223372036854775808

/-- The numbers are those from the first one on, step by step, that do not pass the bound. -/
structure Enumerates (a : Spelled) (ns : List Int) : Prop where
  term : ∀ (i : Nat) (h : i < ns.length), ns[i] = a.first.value + i * a.step
  reach : ∀ i : Nat, i < ns.length ↔
    if 0 < a.step then a.first.value + i * a.step ≤ a.bound.value
    else a.bound.value ≤ a.first.value + i * a.step

theorem not_mem_body (a : Spelled) (hc : (c.isDigit || c == '-') = false) (hcolon : c ≠ ':') :
    c ∉ a.body := by
  simp only [body, stepsText, mem_append, mem_cons, mem_flatMap, not_or, not_exists, not_and]
  refine ⟨a.first.not_mem_text hc, hcolon, a.bound.not_mem_text hc, ?_⟩
  intro n _
  exact ⟨hcolon, n.not_mem_text hc⟩

theorem colon_mem_body (a : Spelled) : ':' ∈ a.body := mem_append_right _ mem_cons_self

theorem bracket_not_mem (a : Spelled) : '[' ∉ a.body ++ [']'] := by
  rw [mem_append, mem_singleton]
  exact not_or.mpr ⟨a.not_mem_body (by decide) (by decide), by decide⟩

theorem ne_nil (a : Spelled) : a.text ≠ [] := cons_ne_nil _ _

theorem not_digit_stepsText (steps : List Numeral) (r : Text) :
    ∀ c ∈ (stepsText steps ++ ']' :: r).head?, c.isDigit = false := by
  cases steps with
  | nil =>
    intro c hc
    cases hc
    rfl
  | cons n ns =>
    intro c hc
    cases hc
    rfl

end Spelled

theorem steps?_text (steps : List Numeral) (step : Int) (r : Text) {fuel : Nat} (h : steps.length < fuel) :
    steps? fuel step (stepsText steps ++ ']' :: r) =
      some ((steps.getLast?.map Numeral.value).getD step, r) := by
  induction steps generalizing fuel step with
  | nil =>
    obtain ⟨fuel, rfl⟩ := Nat.exists_eq_add_of_lt h
    rfl
  | cons n ns ih =>
    obtain ⟨fuel, rfl⟩ : ∃ k, fuel = k + 1 := ⟨fuel - 1, by omega⟩
    have hcut : stepsText (n :: ns) ++ ']' :: r = ':' :: (n.text ++ (stepsText ns ++ ']' :: r)) := by
      simp [stepsText]
    have hlast : ((n :: ns).getLast?.map Numeral.value).getD step =
        (ns.getLast?.map Numeral.value).getD n.value := by
      rw [getLast?_cons]
      cases ns.getLast? <;> rfl
    rw [hcut, steps?, number?_text n (Spelled.not_digit_stepsText ns r), hlast]
    exact ih n.value (by simpa using h)

theorem exists_steps {fuel : Nat} {step v : Int} (h : steps? fuel step s = some (v, r)) :
    ∃ steps : List Numeral, s = stepsText steps ++ ']' :: r ∧
      (steps.getLast?.map Numeral.value).getD step = v := by
  induction fuel generalizing step s with
  | zero => cases h
  | succ fuel ih =>
    unfold steps? at h
    split at h
    · obtain ⟨rfl, rfl⟩ := Prod.mk.inj (some.inj h)
      exact ⟨[], rfl, rfl⟩
    · split at h
      · rename_i n t hnumber
        obtain ⟨m, rfl, rfl⟩ := exists_numeral hnumber
        obtain ⟨ms, rfl, hlast⟩ := ih h
        refine ⟨m :: ms, by simp [stepsText], ?_⟩
        rw [← hlast, getLast?_cons]
        cases ms.getLast? <;> rfl
      · cases h
    · cases h

theorem length_stepsText (steps : List Numeral) : steps.length ≤ (stepsText steps).length := by
  induction steps with
  | nil => exact Nat.le_refl _
  | cons n ns ih =>
    simp only [stepsText, flatMap_cons, length_append, length_cons] at ih ⊢
    omega

theorem read?_text (a : Spelled) (r : Text) : read? (a.text ++ r) = some (a.meaning, r) := by
  have hcut : a.text ++ r =
      '[' :: (a.first.text ++ ':' :: (a.bound.text ++ (stepsText a.steps ++ ']' :: r))) := by
    simp [Spelled.text, Spelled.body]
  have hfirst := number?_text a.first (r := ':' :: (a.bound.text ++ (stepsText a.steps ++ ']' :: r)))
    (by rintro c hc; cases hc; rfl)
  have hbound := number?_text a.bound (Spelled.not_digit_stepsText a.steps r)
  have hfuel : a.steps.length < (stepsText a.steps ++ ']' :: r).length + 1 := by
    have hlength := length_stepsText a.steps
    rw [length_append]
    omega
  have hsteps := steps?_text a.steps 1 r hfuel
  rw [hcut, read?]
  simp only [hfirst, hbound, hsteps, bind_eq_bind, bind_some]
  rfl

theorem exists_spelled {x : Shorthand} (h : read? s = some (x, r)) :
    ∃ a : Spelled, s = a.text ++ r ∧ a.meaning = x := by
  unfold read? at h
  split at h
  · obtain ⟨⟨first, s₁⟩, hfirst, h⟩ := bind_eq_some_iff.mp h
    obtain ⟨m, rfl, rfl⟩ := exists_numeral hfirst
    dsimp only at h
    split at h
    · obtain ⟨⟨bound, s₂⟩, hbound, h⟩ := bind_eq_some_iff.mp h
      obtain ⟨n, rfl, rfl⟩ := exists_numeral hbound
      obtain ⟨⟨step, s₃⟩, hsteps, h⟩ := bind_eq_some_iff.mp h
      obtain ⟨ns, rfl, hlast⟩ := exists_steps hsteps
      obtain ⟨rfl, rfl⟩ := Prod.mk.inj (some.inj h)
      refine ⟨⟨m, n, ns⟩, by simp [Spelled.text, Spelled.body], ?_⟩
      rw [← hlast]
      rfl
    · cases h
  · cases h

/-! ## Places of shorthands -/

/-- No shorthand occurs in the text. -/
def IsFree (s : Text) : Prop := ∀ a : Spelled, ¬ a.text <:+: s

theorem IsFree.of_isInfix (h : IsFree t) (hst : s <:+: t) : IsFree s := fun a ha =>
  h a (ha.trans hst)

theorem eq_of_isPrefix {b : Spelled} (h : a.text <+: b.text ++ r) :
    a.text = b.text ∧ a.meaning = b.meaning := by
  obtain ⟨t, ht⟩ := h
  have hread := read?_text a t
  rw [ht, read?_text] at hread
  obtain ⟨hmeaning, rfl⟩ := Prod.mk.inj (some.inj hread)
  exact ⟨append_cancel_right ht, hmeaning.symm⟩

theorem infix_append_text {b : Spelled} (ht : IsFree t) (h : a.text <:+: t ++ (b.text ++ r)) :
    a.meaning = b.meaning ∨ a.text <:+: r := by
  rcases infix_append_of_head a.bracket_not_mem h with h | h | h
  · exact absurd h (ht a)
  · exact .inl (eq_of_isPrefix h).2
  · exact .inr (infix_of_head_not_mem b.bracket_not_mem h)

theorem IsFree.not_isPrefix {y : Text} (ht : IsFree t) (hy : y <:+ t) (hne : y ≠ [])
    (hs : ∀ c ∈ s.head?, c = '[') (a : Spelled) : ¬ a.text <+: y ++ s := by
  intro hprefix
  apply ht.of_isInfix hy.isInfix a
  cases s with
  | nil =>
    rw [append_nil] at hprefix
    exact hprefix.isInfix
  | cons d s =>
    obtain rfl := hs d rfl
    obtain ⟨c, y, rfl⟩ := exists_cons_of_ne_nil hne
    obtain ⟨rfl, hrest⟩ := cons_prefix_cons.mp hprefix
    exact (cons_prefix_cons.mpr ⟨rfl, prefix_of_append_cons a.bracket_not_mem hrest⟩).isInfix

theorem IsFree.read?_eq_none {y : Text} (ht : IsFree t) (hy : y <:+ t) (hne : y ≠ [])
    (hs : ∀ c ∈ s.head?, c = '[') : read? (y ++ s) = none := by
  cases hread : Shorthand.read? (y ++ s) with
  | none => rfl
  | some z =>
    obtain ⟨a, heq, _⟩ := exists_spelled hread
    exact absurd ⟨_, heq.symm⟩ (ht.not_isPrefix hy hne hs a)

/-! ## Writing in full -/

theorem expandFrom_eq_drop (k : Nat) (s : Text) : expandFrom k s = expandFrom 0 (s.drop k) := by
  induction k generalizing s with
  | zero => rfl
  | succ k ih =>
    cases s with
    | nil => rfl
    | cons c s => exact ih s

theorem expand_cons_of_none (h : read? (c :: s) = none) : expand (c :: s) = (expand s).map (c :: ·) := by
  rw [expand, expandFrom, h]
  rfl

theorem written_meaning (h : a.step ≠ 0 → a.isBounded = true) :
    a.meaning.written = if a.step = 0 then .error .badValue else .ok a.full := by
  unfold written
  change (if a.step = 0 then _ else _) = _
  by_cases hstep : a.step = 0
  · rw [if_pos hstep, if_pos hstep]
  · obtain ⟨hshort, hcount⟩ := (Bool.and_eq_true_iff ..).mp (h hstep)
    rw [if_neg hstep, if_neg hstep, if_neg (Nat.not_le.mpr (of_decide_eq_true hcount)), if_pos hshort]
    rfl

theorem expand_text (h : a.step ≠ 0 → a.isBounded = true) (r : Text) : expand (a.text ++ r) =
      if a.step = 0 then .error .badValue else (expand r).map (a.full ++ ·) := by
  have hread := read?_text a r
  rw [Spelled.text, cons_append] at hread ⊢
  have hskip : (a.body ++ [']'] ++ r).drop ((a.body ++ [']'] ++ r).length - r.length) = r := by
    rw [length_append, Nat.add_sub_cancel, drop_left]
  rw [expand, expandFrom, hread]
  simp only
  rw [written_meaning h, expandFrom_eq_drop, hskip]
  split
  · rfl
  · change (expandFrom 0 r >>= fun x => pure (a.full ++ x)) = Except.map (a.full ++ ·) (expandFrom 0 r)
    cases expandFrom 0 r <;> rfl

theorem expand_append (ht : IsFree t) (hs : ∀ c ∈ s.head?, c = '[') :
    expand (t ++ s) = (expand s).map (t ++ ·) := by
  have hpart : ∀ y, y <:+ t → expand (y ++ s) = (expand s).map (y ++ ·) := by
    intro y
    induction y with
    | nil =>
      intro _
      change expand s = Except.map (fun z => z) (expand s)
      cases expand s <;> rfl
    | cons c y ih =>
      intro hy
      have hread : read? (c :: (y ++ s)) = none := ht.read?_eq_none hy (cons_ne_nil c y) hs
      rw [cons_append, expand_cons_of_none hread, ih ((suffix_cons c y).trans hy)]
      cases expand s <;> rfl
  exact hpart t suffix_rfl

theorem expand_free (ht : IsFree t) : expand t = .ok t := by
  have hend := expand_append (s := []) ht (by simp)
  rw [append_nil] at hend
  rw [hend]
  change Except.ok (t ++ []) = _
  rw [append_nil]

/-! ## Texts with shorthands -/

/-- A text cut at shorthands: each of them with the text before it, and the text after the last one. -/
structure Sections where
  parts : List (Text × Spelled)
  tail : Text

namespace Sections

def source (p : Sections) : Text := p.parts.flatMap (fun x => x.1 ++ x.2.text) ++ p.tail

/-- Every shorthand gives way to the list that it stands for. -/
def full (p : Sections) : Text := p.parts.flatMap (fun x => x.1 ++ x.2.full) ++ p.tail

/-- Between the shorthands there are no others. -/
structure IsCut (p : Sections) : Prop where
  parts : ∀ x ∈ p.parts, IsFree x.1
  tail : IsFree p.tail

theorem source_cons (t : Text) (a : Spelled) (xs : List (Text × Spelled)) (tail : Text) :
    source ⟨(t, a) :: xs, tail⟩ = t ++ (a.text ++ source ⟨xs, tail⟩) := by
  simp [source]

theorem full_cons (t : Text) (a : Spelled) (xs : List (Text × Spelled)) (tail : Text) :
    full ⟨(t, a) :: xs, tail⟩ = t ++ (a.full ++ full ⟨xs, tail⟩) := by
  simp [full]

theorem IsCut.rest {x : Text × Spelled} {xs : List (Text × Spelled)} {tail : Text}
    (h : IsCut ⟨x :: xs, tail⟩) : IsCut ⟨xs, tail⟩ := ⟨fun y hy => h.parts y (.tail _ hy), h.tail⟩

variable {p : Sections}

theorem isCut_cons {t : Text} (ht : IsFree t) (hp : p.IsCut) : IsCut ⟨(t, a) :: p.parts, p.tail⟩ := by
  refine ⟨?_, hp.tail⟩
  intro x hx
  rcases mem_cons.mp hx with rfl | hx
  · exact ht
  · exact hp.parts x hx

theorem isFree_cons {s t : Text} (hread : read? (c :: s) = none) (ht : IsFree t) (hts : t <+: s) :
    IsFree (c :: t) := by
  intro a ha
  rcases infix_cons_iff.mp ha with hp | hi
  · obtain ⟨r, hr⟩ := hp.trans (cons_prefix_cons.mpr ⟨rfl, hts⟩)
    rw [← hr, read?_text] at hread
    cases hread
  · exact ht a hi

theorem exists_isCut (s : Text) : ∃ p : Sections, p.source = s ∧ p.IsCut := by
  induction hlength : s.length using Nat.strong_induction_on generalizing s with
  | _ n ih =>
    subst hlength
    cases s with
    | nil => exact ⟨⟨[], []⟩, rfl, by simp, fun a h => a.ne_nil (infix_nil.mp h)⟩
    | cons c s =>
      cases hread : read? (c :: s) with
      | some z =>
        obtain ⟨a, hs, _⟩ := exists_spelled hread
        have hshort : z.2.length < (c :: s).length := by
          have hpos := length_pos_of_ne_nil a.ne_nil
          rw [hs, length_append]
          omega
        obtain ⟨p, hp, hcut⟩ := ih z.2.length hshort z.2 rfl
        refine ⟨⟨([], a) :: p.parts, p.tail⟩, ?_, isCut_cons ?_ hcut⟩
        · rw [source_cons, nil_append, hs]
          exact congrArg (a.text ++ ·) hp
        · exact fun a h => a.ne_nil (infix_nil.mp h)
      | none =>
        obtain ⟨⟨parts, tail⟩, rfl, hcut⟩ := ih s.length (Nat.lt_succ_self _) s rfl
        cases parts with
        | nil => exact ⟨⟨[], c :: tail⟩, rfl, by simp, isFree_cons hread hcut.tail prefix_rfl⟩
        | cons x xs =>
          have hfirst : x.1 <+: source ⟨x :: xs, tail⟩ := by
            rw [source_cons]
            exact prefix_append _ _
          refine ⟨⟨(c :: x.1, x.2) :: xs, tail⟩, ?_, ?_⟩
          · rw [source_cons, source_cons]
            rfl
          · exact isCut_cons (p := ⟨xs, tail⟩)
              (isFree_cons hread (hcut.parts x mem_cons_self) hfirst) hcut.rest

/-- The shorthands of a text are those at which it is cut. -/
theorem IsCut.exists_meaning (h : p.IsCut) (ha : a.text <:+: p.source) :
    ∃ x ∈ p.parts, a.meaning = x.2.meaning := by
  obtain ⟨parts, tail⟩ := p
  induction parts with
  | nil => exact absurd ha (h.tail a)
  | cons x xs ih =>
    rw [source_cons] at ha
    rcases infix_append_text (h.parts x mem_cons_self) ha with heq | ha
    · exact ⟨x, mem_cons_self, heq⟩
    · obtain ⟨y, hy, heq⟩ := ih h.rest ha
      exact ⟨y, .tail _ hy, heq⟩

theorem infix_source {x : Text × Spelled} (hx : x ∈ p.parts) : x.2.text <:+: p.source := by
  obtain ⟨xs, ys, hparts⟩ := append_of_mem hx
  refine ⟨xs.flatMap (fun x => x.1 ++ x.2.text) ++ x.1, ys.flatMap (fun x => x.1 ++ x.2.text) ++ p.tail, ?_⟩
  simp [source, hparts]

theorem IsCut.step_zero_iff (h : p.IsCut) :
    (∃ x ∈ p.parts, x.2.step = 0) ↔ ∃ a : Spelled, a.text <:+: p.source ∧ a.step = 0 := by
  constructor
  · rintro ⟨x, hx, hstep⟩
    exact ⟨x.2, infix_source hx, hstep⟩
  · rintro ⟨a, ha, hstep⟩
    obtain ⟨x, hx, heq⟩ := h.exists_meaning ha
    refine ⟨x, hx, ?_⟩
    rw [← hstep]
    exact (congrArg Shorthand.step heq).symm

theorem IsCut.isBounded (h : p.IsCut) (hparts : ∀ x ∈ p.parts, x.2.isBounded = true)
    (ha : a.text <:+: p.source) : a.isBounded = true := by
  obtain ⟨x, hx, heq⟩ := h.exists_meaning ha
  unfold Spelled.isBounded
  rw [heq]
  exact hparts x hx

/-- A text is written in full part by part, unless some step is zero. -/
theorem IsCut.expand_source (h : p.IsCut) (hbounded : ∀ x ∈ p.parts, x.2.step ≠ 0 → x.2.isBounded = true) :
    expand p.source = if p.parts.any (·.2.step == 0) then .error .badValue else .ok p.full := by
  obtain ⟨parts, tail⟩ := p
  induction parts with
  | nil => exact expand_free h.tail
  | cons x xs ih =>
    have hhead : ∀ c ∈ (x.2.text ++ source ⟨xs, tail⟩).head?, c = '[' := by
      intro c hc
      cases hc
      rfl
    rw [source_cons, expand_append (h.parts x mem_cons_self) hhead, expand_text (hbounded x mem_cons_self),
      ih h.rest fun y hy => hbounded y (.tail _ hy), full_cons, any_cons]
    by_cases hstep : x.2.step = 0
    · rw [if_pos hstep, hstep]
      rfl
    · rw [if_neg hstep, beq_false_of_ne hstep, Bool.false_or]
      split <;> rfl

end Sections

/-! ## The lists -/

namespace Spelled

theorem not_mem_join (a : Spelled) (hc : (c.isDigit || c == '-') = false) (hsep : c ∉ ", ".toList) :
    c ∉ join ", " (a.meaning.numbers.map ofInt) := by
  intro hm
  rcases mem_join hm with hm | ⟨s, hs, hm⟩
  · exact hsep hm
  · obtain ⟨v, _, rfl⟩ := mem_map.mp hs
    exact not_mem_of_all (fun _ hd => mem_ofInt hd) hc hm

theorem not_prefix_full (a b : Spelled) (r : Text) : ¬ a.text <+: b.full ++ r := by
  rintro ⟨t, ht⟩
  have hlist := b.not_mem_join (c := ']') (by decide) (by decide)
  have hbody := a.not_mem_body (c := ']') (by decide) (by decide)
  have heq : a.body ++ ']' :: t = join ", " (b.meaning.numbers.map ofInt) ++ ']' :: r := by
    simpa [text, full] using ht
  have hcut := before_append_cons (b := t) hbody
  rw [heq, before_append_cons hlist] at hcut
  exact b.not_mem_join (c := ':') (by decide) (by decide) (hcut ▸ a.colon_mem_body)

theorem bracket_not_mem_full (a : Spelled) : '[' ∉ join ", " (a.meaning.numbers.map ofInt) ++ [']'] := by
  rw [mem_append, mem_singleton]
  exact not_or.mpr ⟨a.not_mem_join (by decide) (by decide), by decide⟩

theorem enumerates_numbers (a : Spelled) (h : a.step ≠ 0) : a.Enumerates a.meaning.numbers := by
  have hlength : a.meaning.numbers.length = a.meaning.count := by simp [numbers]
  constructor
  · intro i hi
    simp only [numbers, getElem_map, getElem_range]
    rfl
  · intro i
    rw [hlength]
    change i < (if 0 < a.step then
        if a.first.value ≤ a.bound.value then ((a.bound.value - a.first.value) / a.step).toNat + 1 else 0
      else if a.bound.value ≤ a.first.value then ((a.first.value - a.bound.value) / -a.step).toNat + 1
      else 0) ↔ _
    generalize a.first.value = x
    generalize a.bound.value = y
    generalize a.step = d at h
    -- Both directions count the steps that fit between the two numbers.
    have hfit : ∀ {u e : Int}, 0 ≤ u → 0 < e → (i < (u / e).toNat + 1 ↔ (i : Int) * e ≤ u) := by
      intro u e hu he
      rw [← Int.le_ediv_iff_mul_le he]
      have hnonneg : 0 ≤ u / e := Int.ediv_nonneg hu (Int.le_of_lt he)
      omega
    by_cases hpos : 0 < d
    · have hterm : 0 ≤ (i : Int) * d := Int.mul_nonneg (Int.natCast_nonneg i) (Int.le_of_lt hpos)
      simp only [hpos, if_true]
      by_cases hxy : x ≤ y
      · rw [if_pos hxy, hfit (by omega) hpos]
        omega
      · rw [if_neg hxy]
        omega
    · have hneg : 0 < -d := by omega
      have hterm : 0 ≤ (i : Int) * -d := Int.mul_nonneg (Int.natCast_nonneg i) (Int.le_of_lt hneg)
      rw [Int.mul_neg] at hterm
      simp only [hpos, if_false]
      by_cases hxy : y ≤ x
      · rw [if_pos hxy, hfit (by omega) hneg, Int.mul_neg]
        omega
      · rw [if_neg hxy]
        omega

end Spelled

theorem Sections.IsCut.isFree_full (h : p.IsCut) : IsFree p.full := by
  obtain ⟨parts, tail⟩ := p
  induction parts with
  | nil => exact h.tail
  | cons x xs ih =>
    intro a ha
    rw [Sections.full_cons] at ha
    rcases infix_append_of_head a.bracket_not_mem ha with ha | ha | ha
    · exact h.parts x mem_cons_self a ha
    · exact a.not_prefix_full x.2 _ ha
    · exact ih h.rest a (infix_of_head_not_mem x.2.bracket_not_mem_full ha)

/-! ## One shorthand after the other -/

namespace Sections

/-- The text in which some shorthands have given way and the others have not. -/
def mixed (done : List Text) (p : Sections) : Text :=
  p.parts.flatMap (fun x => x.1 ++ if done.contains x.2.text then x.2.full else x.2.text) ++ p.tail

theorem mixed_cons (done : List Text) (x : Text × Spelled) (xs : List (Text × Spelled)) (tail : Text) :
    mixed done ⟨x :: xs, tail⟩ =
      x.1 ++ ((if done.contains x.2.text then x.2.full else x.2.text) ++ mixed done ⟨xs, tail⟩) := by
  simp [mixed]

theorem replace_brackets {w s : Text} (hw : '[' ∉ w) (h : ¬ a.text <+: '[' :: (w ++ s)) (new : Text) :
    replace ('[' :: (w ++ s)) a.text new = '[' :: (w ++ replace s a.text new) := by
  rw [← isPrefixOf_iff_prefix] at h
  rw [replace_cons, if_neg h]
  exact congrArg ('[' :: ·) (replace_append hw s _ new)
/-- Replacing one shorthand everywhere touches no other one, and nothing in the lists already written. -/
theorem IsCut.replace_mixed (h : p.IsCut) (done : List Text) (a : Spelled) :
    replace (p.mixed done) a.text a.full = p.mixed (a.text :: done) := by
  obtain ⟨parts, tail⟩ := p
  induction parts with
  | nil => exact replace_eq_self ((has_eq_false_iff _ _).mpr (h.tail a)) _
  | cons x xs ih =>
    have hbracket : ∀ c ∈ ((if done.contains x.2.text then x.2.full else x.2.text) ++ mixed done ⟨xs, tail⟩).head?,
        c = '[' := by
      intro c hc
      split at hc <;> cases hc <;> rfl
    have hrest := ih h.rest
    rw [mixed_cons, mixed_cons, replace_append_of_clear fun y hy hne =>
      (h.parts x mem_cons_self).not_isPrefix hy hne hbracket a]
    apply congrArg (x.1 ++ ·)
    cases hdone : done.contains x.2.text with
    | true =>
      rw [if_pos rfl, contains_cons, hdone, Bool.or_true, if_pos rfl]
      rw [Spelled.full, cons_append, replace_brackets x.2.bracket_not_mem_full (a.not_prefix_full x.2 _), hrest]
      rfl
    | false =>
      rw [if_neg Bool.false_ne_true, contains_cons, hdone, Bool.or_false]
      by_cases hsame : a.text = x.2.text
      · have hmeaning : a.meaning = x.2.meaning :=
          (eq_of_isPrefix (r := []) (by rw [hsame]; exact prefix_append _ _)).2
        have hfull : a.full = x.2.full := by
          unfold Spelled.full
          rw [hmeaning]
        rw [if_pos (by simp [hsame]), ← hsame, replace_append_self a.ne_nil, hrest, hfull]
      · rw [if_neg (by simpa using Ne.symm hsame)]
        rw [Spelled.text, cons_append, replace_brackets x.2.bracket_not_mem
          (fun hp => hsame (eq_of_isPrefix hp).1), hrest]
        rfl

/-- To replace the shorthands one after the other, each of them everywhere, is to replace all at once. -/
theorem IsCut.foldl_replace (h : p.IsCut) :
    p.parts.foldl (fun t x => Text.replace t x.2.text x.2.full) p.source = p.full := by
  have hturn : ∀ (xs : List (Text × Spelled)) (done : List Text),
      xs.foldl (fun t x => Text.replace t x.2.text x.2.full) (p.mixed done) =
        p.mixed ((xs.map (·.2.text)).reverse ++ done) := by
    intro xs
    induction xs with
    | nil => exact fun _ => rfl
    | cons x xs ih =>
      intro done
      rw [foldl_cons, h.replace_mixed, ih]
      simp
  have hnone : p.mixed [] = p.source := by simp [mixed, source]
  have hall : p.mixed ((p.parts.map (·.2.text)).reverse ++ []) = p.full := by
    unfold mixed full
    apply congrArg (· ++ p.tail)
    apply flatMap_congr
    intro x hx
    rw [if_pos (by simpa using ⟨x.1, x.2, hx, rfl⟩)]
  rw [← hnone, hturn, hall]

end Sections

/-- If no shorthand of the text goes beyond the word, expansion fails exactly on a step of zero. Otherwise each shorthand gives way to the list of the
numbers from its first one on that do not pass its bound, and all other text stays; this is also what
comes of replacing them one after the other. No shorthand is left, and expanding again changes
nothing. -/
theorem expand_replaces_shorthands (s : Text)
    (hbounded : ∀ a : Spelled, a.text <:+: s → a.step ≠ 0 → a.isBounded = true) :
    (expand s = .error .badValue ↔ ∃ a : Spelled, a.text <:+: s ∧ a.step = 0) ∧
    (∃ p : Sections, p.source = s ∧ p.IsCut) ∧
    ∀ p : Sections, p.source = s → p.IsCut → (∀ a : Spelled, a.text <:+: s → a.step ≠ 0) →
      (∀ x ∈ p.parts, x.2.Enumerates x.2.meaning.numbers) ∧ expand s = .ok p.full ∧
        p.parts.foldl (fun t x => Text.replace t x.2.text x.2.full) s = p.full ∧
        IsFree p.full ∧ expand p.full = .ok p.full := by
  have herror : ∀ p : Sections, p.IsCut →
      (p.parts.any (·.2.step == 0) = true ↔ ∃ a : Spelled, a.text <:+: p.source ∧ a.step = 0) := by
    intro p hcut
    rw [← hcut.step_zero_iff]
    simp
  refine ⟨?_, Sections.exists_isCut s, ?_⟩
  · obtain ⟨p, rfl, hcut⟩ := Sections.exists_isCut s
    rw [hcut.expand_source fun x hx => hbounded x.2 (Sections.infix_source hx), ← herror p hcut]
    split
    · rename_i hzero
      simp [hzero]
    · rename_i hzero
      simp [hzero]
  · rintro p rfl hcut hsteps
    have hsome : p.parts.any (·.2.step == 0) = false := by
      rw [← Bool.not_eq_true, herror p hcut]
      rintro ⟨a, ha, hzero⟩
      exact hsteps a ha hzero
    have hexpand := hcut.expand_source fun x hx => hbounded x.2 (Sections.infix_source hx)
    rw [hsome, if_neg Bool.false_ne_true] at hexpand
    refine ⟨?_, hexpand, hcut.foldl_replace, hcut.isFree_full, expand_free hcut.isFree_full⟩
    intro x hx
    exact x.2.enumerates_numbers (hsteps x.2 (Sections.infix_source hx))

/-- Two steps of which the last one counts, an empty list, and a list that goes down. -/
def mixedSections : Sections :=
  ⟨[(['x'], ⟨⟨false, ['1'], by decide, by decide⟩, ⟨false, ['9'], by decide, by decide⟩,
      [⟨false, ['2'], by decide, by decide⟩, ⟨true, ['3'], by decide, by decide⟩]⟩),
    (['y'], ⟨⟨false, ['3'], by decide, by decide⟩, ⟨true, ['2'], by decide, by decide⟩,
      [⟨true, ['0', '2'], by decide, by decide⟩]⟩),
    (['z'], ⟨⟨false, ['1'], by decide, by decide⟩, ⟨false, ['8'], by decide, by decide⟩,
      [⟨true, ['3'], by decide, by decide⟩, ⟨false, ['3'], by decide, by decide⟩]⟩)], []⟩

theorem expand_replaces_shorthands_sample :
    expand "x[1:9:2:-3]y[3:-2:-02]z[1:8:-3:3]" = .ok "x[]y[3, 1, -1]z[1, 4, 7]" ∧
      expand "x[]y[3, 1, -1]z[1, 4, 7]" = .ok "x[]y[3, 1, -1]z[1, 4, 7]" := by
  have hfree : ∀ c : Char, c ≠ '[' → IsFree [c] := by
    intro c hc a ha
    exact hc (List.mem_singleton.mp (ha.subset List.mem_cons_self)).symm
  have hcut : mixedSections.IsCut :=
    ⟨by simp [mixedSections, hfree], fun a ha => a.ne_nil (List.infix_nil.mp ha)⟩
  obtain ⟨herror, _, hall⟩ := expand_replaces_shorthands mixedSections.source fun a ha _ =>
    hcut.isBounded (by decide) ha
  have hparts := hall mixedSections rfl hcut
    (fun a ha hzero => absurd (herror.mpr ⟨a, ha, hzero⟩) (by decide))
  exact ⟨hparts.2.1, hparts.2.2.2.2⟩

/-- Beyond the word the numbers are written as long ones. With more numbers than a word can count the
list fails, and a step of zero behind it is never seen. -/
theorem expand_beyond_word :
    expand "[9223372036854775807:9223372036854775807]" = .ok "[9223372036854775807L]" ∧
    expand "[0:9223372036854775807] [1:2:0]" = .error .overflow ∧
    ∃ a : Spelled, a.text <:+: "[0:9223372036854775807] [1:2:0]" ∧ a.step = 0 := by
  refine ⟨by decide +kernel, by decide +kernel, ?_⟩
  exact ⟨⟨⟨false, ['1'], by decide, by decide⟩, ⟨false, ['2'], by decide, by decide⟩,
    [⟨false, ['0'], by decide, by decide⟩]⟩, ⟨"[0:9223372036854775807] ", [], by decide⟩, by decide⟩

end Shorthand
end OutlineMarkup
