import OutlineMarkup.Method
import OutlineMarkup.Proofs.Lines

/-!
# Templates

Text that refers to variables. Variables are replaced one after another, and each replacement works on
what the ones before it have left. As long as that is read as the references that are left, all
references are filled at once; so it is where no reference touches a word or another reference.
-/

namespace OutlineMarkup

namespace Reference

theorem replaceEach_append (vars : Variables) (a b : List Text) (code : Text) :
    replaceEach vars (a ++ b) code = replaceEach vars a code >>= replaceEach vars b := List.foldlM_append

/-- What is put in for a variable. -/
def HasValue (vars : Variables) (n v : Text) : Prop :=
  ∃ value r, vars.get? ('$' :: n) = some value ∧ Pattern.Replacement.read value = .ok r ∧
    ∀ whole, r.expand whole [] = .ok v

end Reference

/-- A character, or a reference to a variable. -/
inductive Slot where
  | char (c : Char)
  | ref (name : Text)
  deriving Repr, DecidableEq

abbrev Template := List Slot

namespace Slot

def source : Slot → Text
  | char c => [c]
  | ref name => '$' :: name

def fill (env : Text → Text) : Slot → Text
  | char c => [c]
  | ref name => env name

def name? : Slot → Option Text
  | char _ => none
  | ref name => some name

def fillIn (names : List Text) (env : Text → Text) : Slot → Template
  | char c => [char c]
  | ref name => if name ∈ names then (env name).map char else [ref name]

end Slot

namespace Template

def source (t : Template) : Text := t.flatMap Slot.source

def fill (env : Text → Text) (t : Template) : Text := t.flatMap (Slot.fill env)

def names (t : Template) : List Text := t.filterMap Slot.name?

def fillIn (names : List Text) (env : Text → Text) (t : Template) : Template :=
  t.flatMap (Slot.fillIn names env)

/-- Nothing follows, or a character that no word holds. -/
def stopsWord : Template → Bool
  | [] => true
  | .char c :: _ => !Text.isWordChar c
  | .ref _ :: _ => false

/-- No reference goes on as a word or touches another reference. -/
def isSeparated : Template → Bool
  | [] => true
  | .char _ :: t => isSeparated t
  | .ref _ :: t => stopsWord t && isSeparated t

/-- References are names that touch neither words nor each other. -/
structure Clean (t : Template) : Prop where
  chars : ∀ c, .char c ∈ t → c ≠ '$' ∧ c ≠ '\\'
  names : ∀ n ∈ t.names, n.isName = true
  separated : t.isSeparated = true

open List Text Reference
variable {t : Template} {escaped : Bool} {previous : Option Char} {r value : Text}
  {new : Except Fault Text} {c : Char}

@[simp] theorem source_append (s t : Template) : source (s ++ t) = s.source ++ t.source := flatMap_append

@[simp] theorem fill_append (env : Text → Text) (s t : Template) :
    fill env (s ++ t) = s.fill env ++ t.fill env := flatMap_append

@[simp] theorem source_chars (w : Text) : source (w.map .char) = w := by
  induction w with
  | nil => rfl
  | cons c w ih => exact congrArg (c :: ·) ih

@[simp] theorem fill_chars (env : Text → Text) (w : Text) : fill env (w.map .char) = w := by
  induction w with
  | nil => rfl
  | cons c w ih => exact congrArg (c :: ·) ih

theorem names_append (s t : Template) : names (s ++ t) = s.names ++ t.names := filterMap_append

theorem names_chars (w : Text) : names (w.map .char) = [] := by
  induction w with
  | nil => rfl
  | cons c w ih => exact ih

theorem Clean.tail {x : Slot} (h : Clean (x :: t)) : Clean t := by
  refine ⟨fun c hc => h.chars c (.tail _ hc), fun n hn => h.names n ?_, ?_⟩
  · cases x with
    | char c => exact hn
    | ref m => exact .tail _ hn
  · have hs := h.separated
    cases x with
    | char c => exact hs
    | ref m =>
      rw [isSeparated, Bool.and_eq_true] at hs
      exact hs.2

variable {n w s : Text} {p : Option Char} {vars : Variables}

theorem Clean.head (h : Clean (.ref n :: t)) : ∀ c ∈ t.source.head?, isWordChar c = false := by
  have hs := h.separated
  rw [isSeparated, Bool.and_eq_true] at hs
  intro c hc
  match t, hs.1 with
  | [], _ => simp [source] at hc
  | .char d :: t, hd =>
    obtain rfl : d = c := by simpa [source, Slot.source] using hc
    simpa [stopsWord] using hd
  | .ref m :: t, hm => cases hm

theorem isWordChar_of_isNameStart (h : isNameStart c) : isWordChar c := by
  simp only [isNameStart, Bool.or_eq_true] at h
  rcases h with h | h
  · simp [isWordChar, Char.isAlphanum, h]
  · simp [isWordChar, h]

theorem isName_iff : n.isName ↔ ∃ c r, n = c :: r ∧ isNameStart c ∧ ∀ d ∈ n, isWordChar d := by
  cases n with
  | nil => simp [isName]
  | cons c r =>
    simp only [isName, Bool.and_eq_true, all_eq_true]
    constructor
    · rintro ⟨hc, hr⟩
      refine ⟨c, r, rfl, hc, fun d hd => ?_⟩
      rcases mem_cons.mp hd with rfl | hd
      · exact isWordChar_of_isNameStart hc
      · exact hr d hd
    · rintro ⟨_, _, heq, hc, hall⟩
      cases heq
      exact ⟨hc, (forall_mem_cons.mp hall).2⟩

/-! ## Finding references -/

/-- A scan passes a word and goes on behind it. -/
theorem scan_word {α : Type} (scan : Nat → Option Char → Text → α)
    (hscan : ∀ k p c s, isWordChar c → scan (k + 1) p (c :: s) = scan k (some c) s)
    (hw : ∀ c ∈ w, isWordChar c) (s : Text) (hp : p ≠ some '\\') :
    ∃ q : Option Char, q ≠ some '\\' ∧ scan w.length p (w ++ s) = scan 0 q s := by
  induction w generalizing p with
  | nil => exact ⟨p, hp, rfl⟩
  | cons c w ih =>
    have hc := hw c mem_cons_self
    have hslash : (some c : Option Char) ≠ some '\\' := by simpa using ne_of_class hc (by decide)
    rw [cons_append, length_cons, hscan _ _ _ _ hc]
    exact ih (forall_mem_cons.mp hw).2 hslash

theorem allFrom_char (hc : isWordChar c) (p : Option Char) (s : Text) : allFrom p (c :: s) = allFrom (some c) s := by
  have hdollar : (c == '$') = false := beq_eq_false_iff_ne.mpr (ne_of_class hc (by decide))
  rw [allFrom, hdollar]
  rfl

theorem takeWhile_word (hw : ∀ c ∈ w, isWordChar c)
    (hs : ∀ c ∈ s.head?, isWordChar c = false) : (w ++ s).takeWhile isWordChar = w := by
  rw [takeWhile_append_of_pos hw]
  cases s with
  | nil => simp
  | cons c s => simp [hs c rfl]

/-- The slots are what their text is read as: a reference is a name that ends where the next slot
starts, and no other dollar sign starts one. A backslash may stand before the text. -/
def Faithful : (escaped : Bool) → Template → Prop
  | _, [] => True
  | escaped, .char c :: t =>
    (c = '$' → escaped = false → ∀ d ∈ (source t).head?, Text.isNameStart d = false) ∧
      Faithful (c == '\\') t
  | escaped, .ref n :: t =>
    escaped = false ∧ n.isName = true ∧ (∀ d ∈ (source t).head?, Text.isWordChar d = false) ∧
      Faithful false t

theorem Clean.faithful (h : Clean t) : Faithful false t := by
  induction t with
  | nil => trivial
  | cons x t ih =>
    cases x with
    | char c =>
      obtain ⟨hdollar, hslash⟩ := h.chars c mem_cons_self
      refine ⟨fun heq => absurd heq hdollar, ?_⟩
      rw [beq_false_of_ne hslash]
      exact ih h.tail
    | ref n => exact ⟨rfl, h.names n mem_cons_self, h.head, ih h.tail⟩

theorem Faithful.allFrom_source (h : Faithful escaped t)
    (hp : (previous == some '\\') = escaped) : allFrom previous t.source = t.names.map ('$' :: ·) := by
  induction t generalizing escaped previous with
  | nil => rfl
  | cons x t ih =>
    cases x with
    | char c =>
      obtain ⟨hlone, hrest⟩ := h
      have hno : (c == '$' && previous != some '\\' && (source t).head?.any isNameStart) = false := by
        rw [Bool.and_eq_false_iff, Bool.and_eq_false_iff, bne, hp]
        by_cases hc : c = '$'
        · cases escaped with
          | true => exact .inl (.inr rfl)
          | false =>
            refine .inr ?_
            cases hhead : (source t).head? with
            | none => rfl
            | some d => exact hlone hc rfl d hhead
        · exact .inl (.inl (beq_false_of_ne hc))
      change allFrom previous (c :: source t) = _
      rw [allFrom, hno, if_neg Bool.false_ne_true]
      exact ih hrest (by simp)
    | ref n =>
      obtain ⟨rfl, hname, hstop, hrest⟩ := h
      obtain ⟨d, r, rfl, hd, hall⟩ := isName_iff.mp hname
      obtain ⟨previous', hp', hskip⟩ := scan_word (fun _ => allFrom)
        (fun _ p _ s hc => allFrom_char hc p s) hall (source t) (p := some '$') (by decide)
      change allFrom previous ('$' :: ((d :: r) ++ source t)) = _
      rw [allFrom, hskip, ih hrest (beq_false_of_ne hp'), takeWhile_word hall hstop]
      simp only [beq_self_eq_true, bne, hp, Bool.not_false, cons_append, head?_cons,
        Option.any_some, hd, Bool.and_self, if_true]
      rfl

theorem Clean.all_source (h : Clean t) : Reference.all t.source = t.names.map ('$' :: ·) :=
  h.faithful.allFrom_source rfl

/-! ## Replacing references -/

theorem standsAt_ref {m : Text} (hn : ∀ c ∈ n, isWordChar c)
    (hm : ∀ c ∈ m, isWordChar c) (hs : ∀ c ∈ s.head?, isWordChar c = false) :
    standsAt ('$' :: n) ('$' :: (m ++ s)) = decide (m = n) := by
  rw [Bool.eq_iff_iff, decide_eq_true_eq]
  simp only [standsAt, isPrefixOf_cons_cons_self, length_cons, drop_succ_cons,
    Bool.and_eq_true, isPrefixOf_iff_prefix, Bool.not_eq_true']
  constructor
  · rintro ⟨hpre, hend⟩
    by_cases hle : n.length ≤ m.length
    · obtain ⟨r, rfl⟩ := prefix_of_prefix_length_le hpre (prefix_append m s) hle
      cases r with
      | nil => simp
      | cons c r =>
        have hc := hm c (by simp)
        simp [hc] at hend
    · obtain ⟨r, rfl⟩ := prefix_of_prefix_length_le (prefix_append m s) hpre (by omega)
      cases r with
      | nil => simp
      | cons c r =>
        rw [prefix_append_right_inj] at hpre
        obtain ⟨x, rfl⟩ := hpre
        have hc := hs c rfl
        rw [hn c (by simp)] at hc
        exact Bool.noConfusion hc
  · rintro rfl
    refine ⟨prefix_append _ _, ?_⟩
    rw [drop_left']
    · cases s with
      | nil => rfl
      | cons c s => simpa using hs c rfl
    · rfl

theorem standsAt_lone (hn : n.isName)
    (hs : ∀ d ∈ s.head?, isNameStart d = false) : standsAt ('$' :: n) ('$' :: s) = false := by
  obtain ⟨c, r, rfl, hc, _⟩ := isName_iff.mp hn
  cases s with
  | nil => rfl
  | cons d s =>
    have hne : (c == d) = false := by
      apply beq_false_of_ne
      rintro rfl
      rw [hs c rfl] at hc
      cases hc
    simp [standsAt, isPrefixOf, hne]

theorem replaceFrom_char {name : Text} (hno : (p != some '\\' && standsAt name (c :: s)) = false)
    (h : replaceFrom name new 0 (some c) s = .ok r) : replaceFrom name new 0 p (c :: s) = .ok (c :: r) := by
  rw [replaceFrom, hno, h]
  rfl

theorem standsAt_of_ne (hc : c ≠ '$') : standsAt ('$' :: n) (c :: s) = false := by
  have hne : ('$' == c) = false := beq_false_of_ne (Ne.symm hc)
  simp [standsAt, isPrefixOf, hne]

theorem replaceFrom_word (hw : ∀ c ∈ w, isWordChar c) (hp : p ≠ some '\\')
    (h : ∀ q : Option Char, q ≠ some '\\' → replaceFrom ('$' :: n) new 0 q s = .ok r) :
    replaceFrom ('$' :: n) new 0 p (w ++ s) = .ok (w ++ r) := by
  induction w generalizing p with
  | nil => exact h p hp
  | cons c w ih =>
    have hc := hw c mem_cons_self
    have hslash : (some c : Option Char) ≠ some '\\' := by simpa using ne_of_class hc (by decide)
    have hno : (p != some '\\' && standsAt ('$' :: n) (c :: (w ++ s))) = false := by
      rw [standsAt_of_ne (ne_of_class hc (by decide)), Bool.and_false]
    exact replaceFrom_char hno
      (ih (forall_mem_cons.mp hw).2 hslash)

theorem Faithful.replaceFrom_source {env : Text → Text} (h : Faithful escaped t) (hn : n.isName)
    (hp : (p == some '\\') = escaped) :
    replaceFrom ('$' :: n) (.ok (env n)) 0 p t.source = .ok (t.fillIn [n] env).source := by
  obtain ⟨_, _, _, _, hword⟩ := isName_iff.mp hn
  induction t generalizing escaped p with
  | nil => rfl
  | cons x t ih =>
    cases x with
    | char c =>
      obtain ⟨hlone, hrest⟩ := h
      have hno : (p != some '\\' && standsAt ('$' :: n) (c :: source t)) = false := by
        rw [Bool.and_eq_false_iff, bne, hp]
        by_cases hc : c = '$'
        · subst hc
          cases escaped with
          | true => exact .inl rfl
          | false => exact .inr (standsAt_lone hn (hlone rfl rfl))
        · exact .inr (standsAt_of_ne hc)
      exact replaceFrom_char hno (ih hrest (by simp))
    | ref m =>
      obtain ⟨rfl, hname, hstop, hrest⟩ := h
      obtain ⟨_, _, _, _, hall⟩ := isName_iff.mp hname
      have hstands := standsAt_ref hword hall hstop
      have hprevious : (p != some '\\') := by rw [bne, hp]; rfl
      change replaceFrom _ _ 0 p ('$' :: (m ++ source t)) = _
      by_cases hmn : m = n
      · subst hmn
        obtain ⟨q, hq, hskip⟩ := scan_word (replaceFrom ('$' :: m) (.ok (env m)))
          (fun _ _ _ _ _ => rfl) hall (source t) (p := some '$') (by decide)
        have hfilled : source (fillIn [m] env (.ref m :: t)) = env m ++ source (fillIn [m] env t) := by
          simp [fillIn, Slot.fillIn]
        rw [replaceFrom, hstands, hfilled]
        simp only [hprevious, decide_true, Bool.and_self, if_true, length_cons, Nat.add_sub_cancel]
        rw [hskip, ih hrest (beq_false_of_ne hq)]
        rfl
      · have hskipped : replaceFrom ('$' :: n) (.ok (env n)) 0 (some '$') (m ++ source t) =
            .ok (m ++ source (fillIn [n] env t)) :=
          replaceFrom_word hall (by decide) fun q hq => ih hrest (beq_false_of_ne hq)
        have hfilled : source (fillIn [n] env (.ref m :: t)) = '$' :: (m ++ source (fillIn [n] env t)) := by
          simp [fillIn, Slot.fillIn, hmn, source, Slot.source]
        rw [replaceFrom, hstands, hfilled]
        simp only [decide_eq_false hmn, Bool.and_false, Bool.false_eq_true, if_false]
        rw [hskipped]
        rfl

theorem expand_literal_cons {r : Pattern.Replacement} {whole : Text} (w : Text)
    (h : r.expand whole [] = .ok value) :
    Pattern.Replacement.expand (.literal w :: r) whole [] = .ok (w ++ value) := by
  rw [Pattern.Replacement.expand] at h ⊢
  rw [mapM_cons]
  rcases hm : r.mapM _ with f | parts
  · rw [hm] at h
    cases h
  · rw [hm] at h
    change Except.ok (parts.flatten) = .ok value at h
    change Except.ok ((w :: parts).flatten) = .ok (w ++ value)
    cases h
    rfl

theorem read_literal (h : '\\' ∉ value) :
    ∃ r, Pattern.Replacement.read value = .ok r ∧ ∀ whole, r.expand whole [] = .ok value := by
  induction value with
  | nil => exact ⟨[], rfl, fun _ => rfl⟩
  | cons c value ih =>
    obtain ⟨r, hr, hexpand⟩ := ih fun hm => h (.tail _ hm)
    have hc : (c == '\\') = false := beq_eq_false_iff_ne.mpr fun e => h (e ▸ mem_cons_self)
    refine ⟨.literal [c] :: r, ?_, fun whole => expand_literal_cons [c] (hexpand whole)⟩
    rw [Pattern.Replacement.read] at hr ⊢
    rw [Pattern.Replacement.readFrom, hc, hr]
    rfl

theorem read_doubled (a : Text) : ∃ r, Pattern.Replacement.read (replace a "\\" "\\\\") = .ok r ∧
      ∀ whole, r.expand whole [] = .ok a := by
  induction a with
  | nil => exact ⟨[], rfl, fun _ => rfl⟩
  | cons c a ih =>
    obtain ⟨r, hr, hexpand⟩ := ih
    refine ⟨.literal [c] :: r, ?_, fun whole => expand_literal_cons [c] (hexpand whole)⟩
    rw [Pattern.Replacement.read] at hr ⊢
    rw [replace_cons]
    by_cases hc : c = '\\'
    · subst hc
      change (Pattern.Replacement.readFrom 0 (replace a "\\" "\\\\") >>= fun r =>
        .ok (.literal ['\\'] :: r)) = _
      rw [hr]
      rfl
    · have hstart : "\\".toList.isPrefixOf (c :: a) = false := by
        simpa [isPrefixOf] using Ne.symm hc
      rw [hstart, if_neg (by decide), Pattern.Replacement.readFrom, beq_false_of_ne hc, hr]
      rfl

theorem hasValue_literal (h : vars.get? ('$' :: n) = some value) (hv : '\\' ∉ value) :
    HasValue vars n value := by
  obtain ⟨r, hread, hexpand⟩ := read_literal hv
  exact ⟨value, r, h, hread, hexpand⟩

theorem hasValue_doubled (h : vars.get? ('$' :: n) = some (replace value "\\" "\\\\")) :
    HasValue vars n value := by
  obtain ⟨r, hread, hexpand⟩ := read_doubled value
  exact ⟨_, r, h, hread, hexpand⟩

section Filling
variable {env : Text → Text} {L : List Text}

theorem mem_names {n : Text} : n ∈ t.names ↔ .ref n ∈ t := by
  constructor
  · intro h
    obtain ⟨x, hx, hn⟩ := mem_filterMap.mp h
    cases x with
    | char c => cases hn
    | ref m =>
      cases hn
      exact hx
  · intro h
    exact mem_filterMap.mpr ⟨_, h, rfl⟩

theorem mem_fillIn {x : Slot} (h : x ∈ t.fillIn L env) : x ∈ t ∨ ∃ n ∈ t.names, ∃ c ∈ env n, x = .char c := by
  obtain ⟨y, hy, hx⟩ := mem_flatMap.mp h
  cases y with
  | char c =>
    obtain rfl := mem_singleton.mp hx
    exact .inl hy
  | ref n =>
    rw [Slot.fillIn] at hx
    split at hx
    · obtain ⟨c, hc, rfl⟩ := mem_map.mp hx
      exact .inr ⟨n, mem_names.mpr hy, c, hc, rfl⟩
    · obtain rfl := mem_singleton.mp hx
      exact .inl hy

theorem isSeparated_chars {w : Text} {t : Template} (h : t.isSeparated) : isSeparated (w.map .char ++ t) := by
  induction w with
  | nil => exact h
  | cons c w ih => exact ih

theorem stopsWord_fillIn (h : t.stopsWord) : (t.fillIn L env).stopsWord := by
  match t, h with
  | [], _ => rfl
  | .char c :: t, h => exact h
  | .ref n :: t, h => cases h

theorem isSeparated_fillIn (h : t.isSeparated) : (t.fillIn L env).isSeparated := by
  induction t with
  | nil => rfl
  | cons x t ih =>
    cases x with
    | char c => exact ih h
    | ref n =>
      rw [isSeparated, Bool.and_eq_true] at h
      have hcut : fillIn L env (.ref n :: t) = Slot.fillIn L env (.ref n) ++ fillIn L env t := rfl
      rw [hcut, Slot.fillIn]
      split
      · exact isSeparated_chars (ih h.2)
      · change (stopsWord (fillIn L env t) && isSeparated (fillIn L env t))
        rw [stopsWord_fillIn h.1, ih h.2]
        rfl

theorem Clean.fillIn (h : Clean t) (henv : ∀ n ∈ t.names, ∀ c ∈ env n, c ≠ '$' ∧ c ≠ '\\') :
    Clean (t.fillIn L env) := by
  refine ⟨fun c hc => ?_, fun n hn => ?_, isSeparated_fillIn h.separated⟩
  · rcases mem_fillIn hc with hc | ⟨n, hn, d, hd, heq⟩
    · exact h.chars c hc
    · cases heq
      exact henv n hn c hd
  · rcases mem_fillIn (mem_names.mp hn) with hn | ⟨_, _, _, _, heq⟩
    · exact h.names n (mem_names.mpr hn)
    · cases heq

theorem fillIn_append (s t : Template) :
    fillIn L env (s ++ t) = s.fillIn L env ++ t.fillIn L env := flatMap_append

theorem fillIn_chars (w : Text) : fillIn L env (w.map .char) = w.map .char := by
  induction w with
  | nil => rfl
  | cons c w ih => exact congrArg (Slot.char c :: ·) ih

theorem fillIn_concat (n : Text) : (t.fillIn L env).fillIn [n] env = t.fillIn (L ++ [n]) env := by
  induction t with
  | nil => rfl
  | cons x t ih =>
    have hcut : ∀ K : List Text, fillIn K env (x :: t) = Slot.fillIn K env x ++ fillIn K env t := fun _ => rfl
    rw [hcut, hcut, fillIn_append, ih]
    congr 1
    cases x with
    | char c => rfl
    | ref m =>
      by_cases hm : m ∈ L
      · simp [Slot.fillIn, hm, fillIn_chars]
      · by_cases hmn : m = n
        · subst hmn
          simp [Slot.fillIn, hm, fillIn]
        · simp [Slot.fillIn, hm, hmn, fillIn]

theorem source_fillIn (h : ∀ n ∈ t.names, n ∈ L) : (t.fillIn L env).source = t.fill env := by
  induction t with
  | nil => rfl
  | cons x t ih =>
    have hcut : fillIn L env (x :: t) = Slot.fillIn L env x ++ fillIn L env t := rfl
    have hrest : source (fillIn L env t) = fill env t := ih fun n hn => h n (by
      cases x with
      | char c => exact hn
      | ref m => exact .tail _ hn)
    rw [hcut, source_append, hrest]
    cases x with
    | char c => rfl
    | ref m =>
      have hm : m ∈ L := h m mem_cons_self
      rw [Slot.fillIn, if_pos hm, source_chars]
      rfl

theorem fillIn_nil : t.fillIn [] env = t := by
  induction t with
  | nil => rfl
  | cons x t ih =>
    have hcut : fillIn [] env (x :: t) = Slot.fillIn [] env x ++ fillIn [] env t := rfl
    rw [hcut, ih]
    cases x <;> rfl

theorem Faithful.replaceEach_single (h : Faithful false t) (env : Text → Text) (hn : n.isName)
    (hvalue : HasValue vars n (env n)) :
    replaceEach vars ['$' :: n] t.source = .ok (t.fillIn [n] env).source := by
  obtain ⟨value, r, hget, hread, hexpand⟩ := hvalue
  have hone : replaceOne ('$' :: n) value t.source = .ok (t.fillIn [n] env).source := by
    rw [replaceOne, hread]
    change replaceFrom ('$' :: n) (r.expand ('$' :: n) []) 0 none t.source = _
    rw [hexpand, h.replaceFrom_source hn rfl]
  rw [replaceEach, foldlM_cons, hget]
  change (replaceOne ('$' :: n) value t.source >>= pure) = _
  rw [hone]
  rfl

/-- Variables are replaced one after another as long as what is left is read as it should be. -/
theorem replaceEach_source {M : List Text} (hM : ∀ n ∈ M, n.isName ∧ HasValue vars n (env n))
    (hfaithful : ∀ K, K <+: M → Faithful false (t.fillIn K env)) :
    replaceEach vars (M.map ('$' :: ·)) t.source = .ok (t.fillIn M env).source := by
  induction M using reverseRecOn with
  | nil =>
    rw [fillIn_nil]
    rfl
  | append_singleton M n ih =>
    obtain ⟨hn, hvalue⟩ := hM n (by simp)
    have hrun := ih (fun m hm => hM m (mem_append_left _ hm))
      fun K hK => hfaithful K (hK.trans (prefix_append _ _))
    have hone := (hfaithful M (prefix_append _ _)).replaceEach_single env hn hvalue
    rw [map_append, replaceEach_append, hrun]
    change replaceEach vars ['$' :: n] _ = _
    rw [hone, fillIn_concat]

/-- Replacing the variables one after another fills all references at once. -/
theorem Clean.resolve_source (h : Clean t) (hvars : ∀ n ∈ t.names, vars.get? ('$' :: n) = some (env n))
    (henv : ∀ n ∈ t.names, ∀ c ∈ env n, c ≠ '$' ∧ c ≠ '\\') (hpoint : '.' ∉ t.fill env) :
    Reference.resolve vars t.source [] = .ok (t.fill env) := by
  have hvalues : ∀ n ∈ t.names, n.isName ∧ HasValue vars n (env n) := fun n hn =>
    ⟨h.names n hn, hasValue_literal (hvars n hn) fun hc => (henv n hn _ hc).2 rfl⟩
  have hrun := replaceEach_source hvalues fun K _ => (h.fillIn henv).faithful
  refine Reference.resolve_of_replaceEach ?_ (Compile.hasExpressionMark_eq_false hpoint)
  rw [Reference.withoutIgnored, foldl_nil, h.all_source, hrun, source_fillIn fun _ hn => hn]

end Filling
end Template
end OutlineMarkup
