import OutlineMarkup.Proofs.Substitution

/-!
# The order of substitution

The variables of a line are replaced in the order in which the line first refers to them. Where two
references touch, the order matters: once the right one has been replaced by a word, the name of the
left one goes on into that word, and it is no longer found. So what a text comes to on a longer line
is what it comes to alone only if the variables that the rest of the line refers to do not change
that.
-/

namespace OutlineMarkup
open List Reference Text Bool

namespace Template

/-! ## Replacing on either side of a space -/

theorem all_space (s t : Text) : Reference.all (s ++ ' ' :: t) = Reference.all s ++ Reference.all t := by
  have hnames : (slots (s ++ ' ' :: t)).names = (slots s).names ++ (slots t).names := by
    rw [slots_append (by decide), names_append]
    rfl
  rw [all_eq_names, all_eq_names, all_eq_names, hnames, map_append]

/-- The variables have words for values. -/
def HasWords (vars : Variables) (env : Text → Text) (names : List Text) : Prop :=
  ∀ n ∈ names, n.isName = true ∧ Reference.HasValue vars n (env n) ∧ ∀ c ∈ env n, c.isAlphanum = true

variable {vars : Variables} {env : Text → Text} {names order : List Text} {t : Template}

theorem count_space_fillIn {escaped : Bool} (h : Faithful escaped t) {n : Text}
    (hn : ∀ c ∈ env n, c.isAlphanum) : (t.fillIn [n] env).source.count ' ' = t.source.count ' ' := by
  have hfree : ∀ {w : Text}, (∀ c ∈ w, isWordChar c) → w.count ' ' = 0 :=
    fun hw => count_eq_zero.mpr fun hm => absurd (hw _ hm) (by decide)
  induction t generalizing escaped with
  | nil => rfl
  | cons x t ih =>
    cases x with
    | char c =>
      change count ' ' (c :: source (fillIn [n] env t)) = count ' ' (c :: source t)
      rw [count_cons, count_cons, ih h.2]
    | ref m =>
      obtain ⟨_, _, _, _, hall⟩ := isName_iff.mp h.2.1
      have hrest := ih h.2.2.2
      by_cases hm : m ∈ [n]
      · have hword : ∀ c ∈ env m, isWordChar c := by
          intro c hc
          rw [mem_singleton.mp hm] at hc
          rw [isWordChar, hn c hc]
          rfl
        rw [fillIn_ref_of_mem hm, source_append, source_chars, count_append, hrest, hfree hword]
        change _ = count ' ' ('$' :: (m ++ source t))
        rw [count_cons_of_ne (by decide), count_append, hfree hall]
      · rw [fillIn_ref_of_not_mem hm]
        change count ' ' ('$' :: (m ++ source _)) = count ' ' ('$' :: (m ++ source t))
        rw [count_cons_of_ne (by decide), count_cons_of_ne (by decide), count_append, count_append, hrest]

theorem replaceEach_words (h : HasWords vars env names) (s : Text) :
    ∃ r, replaceEach vars (names.map ('$' :: ·)) s = .ok r ∧ r.count ' ' = s.count ' ' := by
  induction names generalizing s with
  | nil => exact ⟨s, rfl, rfl⟩
  | cons n names ih =>
    obtain ⟨hn, hvalue, hword⟩ := h n mem_cons_self
    obtain ⟨r, hrun, hcount⟩ := ih (forall_mem_cons.mp h).2 ((slots s).fillIn [n] env).source
    refine ⟨r, (replaceEach_cons env hn hvalue _ s).trans hrun, ?_⟩
    rw [hcount, count_space_fillIn (faithful_slots s) hword, source_slots]

theorem replaceEach_space (h : HasWords vars env names) {s t a b : Text}
    (ha : replaceEach vars (names.map ('$' :: ·)) s = .ok a)
    (hb : replaceEach vars (names.map ('$' :: ·)) t = .ok b) :
    replaceEach vars (names.map ('$' :: ·)) (s ++ ' ' :: t) = .ok (a ++ ' ' :: b) := by
  induction names generalizing s t with
  | nil =>
    cases ha
    cases hb
    rfl
  | cons n names ih =>
    obtain ⟨hn, hvalue, _⟩ := h n mem_cons_self
    have hspace : ((slots (s ++ ' ' :: t)).fillIn [n] env).source =
        ((slots s).fillIn [n] env).source ++ ' ' :: ((slots t).fillIn [n] env).source := by
      rw [slots_append (by decide), fillIn_append, source_append]
      rfl
    rw [map_cons, replaceEach_cons env hn hvalue] at ha hb ⊢
    rw [hspace]
    exact ih (forall_mem_cons.mp h).2 ha hb

theorem append_space_inj {a b a' b' : Text} (hcount : a.count ' ' = a'.count ' ') :
    a ++ ' ' :: b = a' ++ ' ' :: b' ↔ a = a' ∧ b = b' := by
  constructor
  · intro heq
    have hsame : ∀ {a b a' b' : Text}, a.count ' ' = a'.count ' ' →
        ∀ c, a' = a ++ c → ' ' :: b = c ++ ' ' :: b' → a = a' ∧ b = b' := by
      intro a b a' b' hcount c ha hb
      cases c with
      | nil =>
        rw [append_nil] at ha
        exact ⟨ha.symm, (cons.inj hb).2⟩
      | cons d c =>
        obtain ⟨rfl, _⟩ := cons.inj hb
        rw [ha, count_append, count_cons_self] at hcount
        omega
    rcases append_eq_append_iff.mp heq with ⟨c, ha, hb⟩ | ⟨c, ha, hb⟩
    · exact hsame hcount c ha hb
    · obtain ⟨h₁, h₂⟩ := hsame hcount.symm c ha hb
      exact ⟨h₁.symm, h₂.symm⟩
  · rintro ⟨rfl, rfl⟩
    rfl

/-! ## References that touch -/

/-- Of two references that touch, the left one comes no later in the order; and no dollar sign
stands alone before a reference. -/
def fitsOrder (order : List Text) : Template → Bool
  | [] => true
  | .char c :: t => (c != '$' || (leading t).isNone) && fitsOrder order t
  | .ref n :: t => (leading t).all (fun m => decide (order.idxOf n ≤ order.idxOf m)) && fitsOrder order t

theorem mem_prefix_of_idxOf_le {K : List Text} (hK : K <+: order) {n m : Text}
    (hle : order.idxOf n ≤ order.idxOf m) (hm : m ∈ K) : n ∈ K := by
  obtain ⟨rest, rfl⟩ := hK
  rw [idxOf_append_of_mem hm] at hle
  have hlt : (K ++ rest).idxOf n < K.length := Nat.lt_of_le_of_lt hle (idxOf_lt_length_of_mem hm)
  by_contra hn
  rw [idxOf_append_of_notMem hn] at hlt
  omega

theorem faithful_word_append {w : Text} (hw : ∀ c ∈ w, c.isAlphanum)
    (h : Faithful false t) : Faithful false (w.map .char ++ t) := by
  induction w with
  | nil => exact h
  | cons c w ih =>
    have hc := hw c mem_cons_self
    refine ⟨?_, ?_⟩
    · rintro rfl
      exact absurd hc (by decide)
    · rw [beq_false_of_ne (ne_of_class hc (by decide))]
      exact ih (forall_mem_cons.mp hw).2

/-- Words put in for the first names of an order leave the other references as they are. -/
theorem Faithful.fillIn_order {escaped : Bool} (h : Faithful escaped t)
    {K : List Text} (hfits : t.fitsOrder order) (hK : K <+: order)
    (henv : ∀ n ∈ K, ∀ c ∈ env n, c.isAlphanum) : Faithful escaped (t.fillIn K env) := by
  induction t generalizing escaped with
  | nil => trivial
  | cons x t ih =>
    cases x with
    | char c =>
      obtain ⟨hlone, hrest⟩ := h
      rw [fitsOrder, and_eq_true] at hfits
      rw [fillIn_char]
      refine ⟨?_, ih hrest hfits.2⟩
      rintro rfl hescaped
      have hleading : leading t = none := by simpa using hfits.1
      rw [head?_source_fillIn hleading]
      exact hlone rfl hescaped
    | ref n =>
      obtain ⟨rfl, hname, hstop, hrest⟩ := h
      rw [fitsOrder, and_eq_true] at hfits
      have hfilled := ih hrest hfits.2
      by_cases hn : n ∈ K
      · rw [fillIn_ref_of_mem hn]
        exact faithful_word_append (henv n hn) hfilled
      · rw [fillIn_ref_of_not_mem hn]
        refine ⟨rfl, hname, ?_, hfilled⟩
        match t, hfits.1, hstop with
        | [], _, hstop | .char c :: t, _, hstop => exact hstop
        | .ref m :: t, hle, _ =>
          -- The reference behind it comes later, so it has not been filled either.
          have hm : m ∉ K := fun hm => hn (mem_prefix_of_idxOf_le hK (by simpa [leading] using hle) hm)
          rw [fillIn_ref_of_not_mem hm]
          intro d hd
          obtain rfl : '$' = d := Option.some.inj hd
          rfl

/-- Words are put in for all references of a text whose touching references fit the order. -/
theorem replaceEach_order (h : HasWords vars env names) {s : Text}
    (hfits : (slots s).fitsOrder names) (hall : ∀ n ∈ (slots s).names, n ∈ names) :
    replaceEach vars (names.map ('$' :: ·)) s = .ok ((slots s).fill env) := by
  have hvalues : ∀ n ∈ names, n.isName ∧ HasValue vars n (env n) := fun n hn => ⟨(h n hn).1, (h n hn).2.1⟩
  have hrun := replaceEach_source hvalues
    fun K hK => (faithful_slots s).fillIn_order hfits hK fun n hn => (h n (hK.subset hn)).2.2
  rwa [source_slots, source_fillIn hall] at hrun

theorem fitsOrder_append (hnames : ∀ n ∈ t.names, n ∈ order)
    (h : t.fitsOrder order) (more : List Text) : t.fitsOrder (order ++ more) := by
  induction t with
  | nil => rfl
  | cons x t ih =>
    cases x with
    | char c =>
      rw [fitsOrder, and_eq_true] at h ⊢
      exact ⟨h.1, ih hnames h.2⟩
    | ref n =>
      have hrest : ∀ m ∈ names t, m ∈ order := (forall_mem_cons.mp hnames).2
      rw [fitsOrder, and_eq_true] at h ⊢
      refine ⟨?_, ih hrest h.2⟩
      match t, h.1, hrest with
      | [], _, _ | .char c :: t, _, _ => rfl
      | .ref m :: t, hle, hrest =>
        simp only [leading, Option.all_some] at hle ⊢
        rwa [idxOf_append_of_mem (hnames n mem_cons_self), idxOf_append_of_mem (hrest m mem_cons_self)]

theorem hasWords_of_defined (h : ∀ n ∈ names, n.isName ∧ ∃ value, Table.get? vars ('$' :: n) = some value ∧
      value.isAlphanumeric) : HasWords vars (valueOf vars) names := by
  intro n hn
  obtain ⟨hname, value, hget, hvalue⟩ := h n hn
  have hword : ∀ c ∈ value, c.isAlphanum := by
    rw [isAlphanumeric, and_eq_true, all_eq_true] at hvalue
    exact hvalue.2
  have heq : valueOf vars n = value := by rw [valueOf, hget]; rfl
  have hplain : '\\' ∉ value := fun hm => absurd (hword _ hm) (by decide)
  rw [heq]
  exact ⟨hname, hasValue_literal hget hplain, hword⟩

/-- Two texts on one line, with words for all variables. The line comes to what the two come to alone
if and only if what the first comes to has no references to variables of the second any more, and
the second comes to the same if the variables of the first are replaced in it before its own. So it is
if, wherever references touch in one of the two, the left one is referred to first, in the text as
well as on the line, and no dollar sign stands alone before a reference; then all references are
filled. -/
theorem resolve_space_iff (vars : Variables) (s t : Text)
    (hdefined : ∀ name ∈ Reference.all s ++ Reference.all t,
      ∃ value, Table.get? vars name = some value ∧ value.isAlphanumeric = true)
    (hmark : ∀ x ∈ [s, t, s ++ ' ' :: t], ∀ r, Reference.replaceEach vars (Reference.all x) x = .ok r →
      r.has Call.expressionMark = false) :
    ∃ a b c, Reference.resolve vars s [] = .ok a ∧ Reference.resolve vars t [] = .ok b ∧
      Reference.resolve vars (s ++ ' ' :: t) [] = .ok c ∧
      (c = a ++ ' ' :: b ↔ Reference.replaceEach vars (Reference.all t) a = .ok a ∧
        Reference.replaceEach vars (Reference.all s ++ Reference.all t) t = .ok b) ∧
      ((slots s).fitsOrder (slots s).names = true → (slots t).fitsOrder (slots t).names = true →
        (slots t).fitsOrder ((slots s).names ++ (slots t).names) = true →
        a = (slots s).fill (valueOf vars) ∧ b = (slots t).fill (valueOf vars) ∧ c = a ++ ' ' :: b) := by
  have hwords : HasWords vars (valueOf vars) ((slots s).names ++ (slots t).names) := by
    refine hasWords_of_defined fun n hn => ⟨?_, hdefined ('$' :: n) ?_⟩
    · rcases List.mem_append.mp hn with hn | hn
      · exact isName_of_mem_names (faithful_slots s) n hn
      · exact isName_of_mem_names (faithful_slots t) n hn
    · rw [all_eq_names, all_eq_names, ← List.map_append]
      exact List.mem_map_of_mem hn
  have hfirst : HasWords vars (valueOf vars) (slots s).names :=
    fun n hn => hwords n (List.mem_append_left _ hn)
  have hsecond : HasWords vars (valueOf vars) (slots t).names :=
    fun n hn => hwords n (List.mem_append_right _ hn)
  obtain ⟨a, ha, hcount⟩ := replaceEach_words hfirst s
  obtain ⟨b, hb, _⟩ := replaceEach_words hsecond t
  obtain ⟨a', ha', hcount'⟩ := replaceEach_words hwords s
  obtain ⟨b', hb', _⟩ := replaceEach_words hwords t
  have hc := replaceEach_space hwords ha' hb'
  -- On the line the first text has been dealt with when the variables of the second are replaced.
  have hlater : Reference.replaceEach vars ((slots t).names.map ('$' :: ·)) a = .ok a' := by
    rw [List.map_append, Reference.replaceEach_append, ha] at ha'
    exact ha'
  rw [← all_eq_names] at ha hb hlater
  rw [List.map_append, ← all_eq_names, ← all_eq_names] at hb'
  have hline : Reference.replaceEach vars (Reference.all (s ++ ' ' :: t)) (s ++ ' ' :: t) =
      .ok (a' ++ ' ' :: b') := by
    rw [all_space, all_eq_names, all_eq_names, ← List.map_append]
    exact hc
  refine ⟨a, b, a' ++ ' ' :: b', Reference.resolve_of_replaceEach ha (hmark s (by simp) a ha),
    Reference.resolve_of_replaceEach hb (hmark t (by simp) b hb),
    Reference.resolve_of_replaceEach hline (hmark _ (by simp) _ hline), ?_, ?_⟩
  · rw [hlater, hb', append_space_inj (hcount'.trans hcount.symm), Except.ok.injEq, Except.ok.injEq]
  · intro hs ht hst
    have hown : ∀ n ∈ (slots s).names, n ∈ (slots s).names := fun _ hn => hn
    have hfill := replaceEach_order hfirst hs hown
    have hfill' := replaceEach_order hwords (fitsOrder_append hown hs _)
      fun n hn => List.mem_append_left _ hn
    have hfilled := replaceEach_order hsecond ht fun _ hn => hn
    have hfilled' := replaceEach_order hwords hst fun n hn => List.mem_append_right _ hn
    rw [← all_eq_names] at hfill hfilled
    rw [List.map_append, ← all_eq_names, ← all_eq_names] at hfilled'
    obtain rfl : a = _ := Except.ok.inj (ha.symm.trans hfill)
    obtain rfl : b = _ := Except.ok.inj (hb.symm.trans hfilled)
    obtain rfl : a' = _ := Except.ok.inj (ha'.symm.trans hfill')
    obtain rfl : b' = _ := Except.ok.inj (hb'.symm.trans hfilled')
    exact ⟨rfl, rfl, rfl⟩

/-- A repeated reference and a pair of touching references of which the left one comes first. -/
theorem resolve_space_iff_sample :
    Reference.resolve [("$a".toList, "1".toList), ("$b".toList, "2".toList)] "$a$a $a$b $b".toList [] =
      .ok "11 12 2".toList := by
  have hmark : ∀ x ∈ ["$a$a".toList, "$a$b $b".toList, "$a$a $a$b $b".toList], ∀ r,
      Reference.replaceEach [("$a".toList, "1".toList), ("$b".toList, "2".toList)] (Reference.all x) x = .ok r →
      r.has Call.expressionMark = false := by
    intro x hx r hr
    rcases List.mem_cons.mp hx with rfl | hx
    · cases Except.ok.inj hr
      rfl
    · rcases List.mem_cons.mp hx with rfl | hx
      · cases Except.ok.inj hr
        rfl
      · rw [List.mem_singleton.mp hx] at hr
        cases Except.ok.inj hr
        rfl
  obtain ⟨a, b, c, _, _, hline, _, hfits⟩ :=
    resolve_space_iff [("$a".toList, "1".toList), ("$b".toList, "2".toList)] "$a$a".toList "$a$b $b".toList
      (by decide) hmark
  obtain ⟨rfl, rfl, rfl⟩ := hfits (by decide) (by decide) (by decide)
  exact hline

/-- A reference at the start of a line keeps another one at its end from being replaced, because the
one that touches it is replaced first. -/
theorem resolve_not_compositional :
    Reference.resolve [("$a", "1"), ("$b", "2")] "$b" [] = .ok "2" ∧
    Reference.resolve [("$a", "1"), ("$b", "2")] "$a$b" [] =
      .ok "12" ∧
    Reference.resolve [("$a", "1"), ("$b", "2")] "$b $a$b" [] =
      .ok "2 $a2" := by
  decide

end Template
end OutlineMarkup
