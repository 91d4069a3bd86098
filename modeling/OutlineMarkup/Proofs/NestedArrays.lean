import OutlineMarkup.Proofs.AttributeLists
import OutlineMarkup.Proofs.Formulas
import OutlineMarkup.Proofs.IndexLoops

/-!
# Indexing nested arrays

The items of an array are words, quoted texts and arrays. Read backwards from its closing bracket, an
array gives these items: brackets inside it are counted, and quotes hide commas and brackets. Main
statement: an array with a path of indexes behind it gives way to the item at the end of the path, and
is rejected if the path leaves an array.
-/

namespace OutlineMarkup
open List Text

/-- Neither double quotes, backslashes and line feeds nor brackets that meet. -/
def isItemText (s : Text) : Bool := s.all (fun c => c != '"' && c != '\\' && c != '\n') && !s.has "]["

/-- A word, a text in double quotes, or an array of at least one term. -/
inductive ArrayTerm where
  | word (w : Text) (h : isBareWord w = true)
  | quoted (s : Text) (h : isItemText s = true)
  | list (first : ArrayTerm) (rest : List ArrayTerm)

namespace ArrayTerm

mutual
def text : ArrayTerm → Text
  | word w _ => w
  | quoted s _ => '"' :: (s ++ ['"'])
  | list t ts => '[' :: (text t ++ (textMore ts ++ [']']))

def textMore : List ArrayTerm → Text
  | [] => []
  | t :: ts => ',' :: ' ' :: (text t ++ textMore ts)
end

def at? : ArrayTerm → List Nat → Option ArrayTerm
  | t, [] => some t
  | list t ts, i :: path =>
    match (t :: ts)[i]? with
    | some u => u.at? path
    | none => none
  | _, _ :: _ => none

/-- On the way there is an array that has no item with the next index. -/
def LeavesRange (t : ArrayTerm) (path : List Nat) : Prop :=
  ∃ (before : List Nat) (i : Nat) (after : List Nat) (u : ArrayTerm) (us : List ArrayTerm),
    path = before ++ i :: after ∧ t.at? before = some (list u us) ∧ (u :: us).length ≤ i

def indexText (i : Nat) : Text := '[' :: (Text.ofNat i ++ [']'])

def indexes (path : List Nat) : Text := path.flatMap indexText

def opened (t : ArrayTerm) (ts : List ArrayTerm) : Text := '[' :: (text t ++ textMore ts)

theorem text_eq_opened (t : ArrayTerm) (ts : List ArrayTerm) : text (list t ts) = opened t ts ++ [']'] := by
  simp [text, opened]

theorem solid_text (t : ArrayTerm) : Solid t.text := by
  cases t with
  | word w h => exact Attributes.solid_word h
  | quoted s h => exact ⟨⟨'"', rfl, rfl⟩, ⟨'"', getLast?_concat (l := '"' :: s), rfl⟩⟩
  | list t ts =>
    rw [text_eq_opened]
    exact ⟨⟨'[', rfl, rfl⟩, ⟨']', getLast?_concat, rfl⟩⟩

/-! ## Brackets that meet -/

/-- Before an opening bracket there are only certain characters. -/
abbrev BeforeOpening (p : Char → Prop) (s : Text) : Prop := s.IsChain fun a b => b = '[' → p a

variable {s : Text} {c : Char} {u : ArrayTerm}

theorem beforeOpening_of_not_mem (h : '[' ∉ s) (p : Char → Prop) : BeforeOpening p s := by
  apply Pairwise.isChain
  apply pairwise_of_forall_mem_list
  rintro a _ b hb rfl
  exact absurd hb h

theorem BeforeOpening.append {p : Char → Prop} {t : Text} (hs : BeforeOpening p s) (ht : BeforeOpening p t)
    (h : t.head? ≠ some '[') : BeforeOpening p (s ++ t) :=
  IsChain.append hs ht fun _ _ _ hb heq => absurd (heq ▸ hb) h

theorem BeforeOpening.cons {p : Char → Prop} (hc : p c) (hs : BeforeOpening p s) : BeforeOpening p (c :: s) :=
  IsChain.cons hs fun _ _ _ => hc

theorem beforeOpening_iff (s : Text) : BeforeOpening (· ≠ ']') s ↔ s.has "][" = false := by
  rw [has_eq_false_iff]
  constructor
  · intro h hi
    have hpair := IsChain.infix h hi
    exact isChain_pair.mp hpair rfl rfl
  · intro h
    induction s with
    | nil => exact .nil
    | cons c s ih =>
      refine IsChain.cons (ih fun hi => h (hi.trans (suffix_cons c s).isInfix)) ?_
      rintro b hb rfl rfl
      obtain ⟨r, rfl⟩ := head?_eq_some_iff.mp hb
      exact h (prefix_append [']', '['] r).isInfix

theorem not_mem_itemText (h : isItemText s) : '"' ∉ s ∧ '\\' ∉ s := by
  simp only [isItemText, Bool.and_eq_true, all_eq_true, bne_iff_ne] at h
  exact ⟨fun hm => (h.1 _ hm).1.1 rfl, fun hm => (h.1 _ hm).1.2 rfl⟩

theorem beforeOpening_append {t : Text} (hs : ']' ∉ s) (ht : BeforeOpening (· ≠ ']') t) :
    BeforeOpening (· ≠ ']') (s ++ t) := by
  apply IsChain.append ((beforeOpening_iff s).mpr (has_eq_false_of_not_mem (c := ']') (by decide) hs)) ht
  rintro a ha b _ _ rfl
  exact hs (mem_of_mem_getLast? ha)

mutual
theorem beforeOpening_text : ∀ t : ArrayTerm, BeforeOpening (· ≠ ']') t.text
  | word w h => beforeOpening_of_not_mem (Attributes.not_mem_word h (by decide)) _
  | quoted s h => by
    have hs : BeforeOpening (· ≠ ']') s := by
      simp only [isItemText, Bool.and_eq_true, Bool.not_eq_true'] at h
      exact (beforeOpening_iff s).mpr h.2
    exact .cons (by decide) (hs.append (beforeOpening_of_not_mem (by decide) _) (by decide))
  | list t ts => by
    have hmore := (beforeOpening_textMore ts).append
      (beforeOpening_of_not_mem (s := [']']) (by decide) (· ≠ ']')) (by decide)
    refine .cons (by decide) ((beforeOpening_text t).append hmore ?_)
    cases ts <;> simp [textMore]

theorem beforeOpening_textMore : ∀ ts : List ArrayTerm, BeforeOpening (· ≠ ']') (textMore ts)
  | [] => .nil
  | t :: ts => by
    refine .cons (by decide) (.cons (by decide) ((beforeOpening_text t).append (beforeOpening_textMore ts) ?_))
    cases ts <;> simp [textMore]
end

theorem cut?_brackets {a : Text} (h : BeforeOpening (· ≠ ']') (a ++ [']'])) (b : Text) :
    cut? (a ++ ']' :: '[' :: b) "][" = some (a, b) := by
  induction a with
  | nil => rfl
  | cons c a ih =>
    have hrest : BeforeOpening (· ≠ ']') (a ++ [']']) := (isChain_cons.mp h).2
    have hstart : ¬ "][".toList.isPrefixOf (c :: (a ++ ']' :: '[' :: b)) := by
      intro hp
      obtain ⟨hc, hp⟩ := cons_prefix_cons.mp <| isPrefixOf_iff_prefix.mp hp
      have hhead : (a ++ [']']).head? = some '[' := by
        cases a with
        | nil => exact absurd (cons_prefix_cons.mp hp).1 (by decide)
        | cons d a => exact congrArg some (cons_prefix_cons.mp hp).1.symm
      exact (isChain_cons.mp h).1 '[' hhead rfl hc.symm
    rw [cons_append, cut?, if_neg hstart, ih hrest]
    rfl

/-! ## Reading backwards -/

open ArrayIndex

def outside (items : List Text) (buffer : Text) (brackets : Int) : Scan := ⟨items, buffer, brackets, false, false⟩

def inside (items : List Text) (buffer : Text) (brackets : Int) : Scan := ⟨items, buffer, brackets, false, true⟩

variable {around : Char} {rest : Text} {items : List Text} {buffer : Text} {n : Int}

theorem run_of_step {st next : Scan} (hstep : st.step c (rest.head?.getD around) = next)
    (hopen : next.brackets ≠ 0) : Scan.run around (c :: rest) st = Scan.run around rest next := by
  rw [Scan.run, hstep]
  simp [hopen]

theorem step_plain (st : Scan) (hc : c ∉ [']', '[', '"', '\'', ',']) (previous : Char) :
    st.step c previous = st.keep c := by
  simp only [mem_cons, not_mem_nil, or_false, not_or] at hc
  simp [Scan.step, hc]

theorem step_inside (hc : c ≠ '"') (previous : Char) :
    (inside items buffer n).step c previous = inside items (c :: buffer) n := by
  simp [Scan.step, Scan.unquoted, Scan.keep, inside, hc]

theorem run_kept (state : Text → Scan) (hopen : ∀ b, (state b).brackets ≠ 0)
    (hstep : ∀ c ∈ s, ∀ b previous, (state b).step c previous = state (c :: b)) (b : Text) :
    Scan.run around (s.reverse ++ rest) (state b) = Scan.run around rest (state (s ++ b)) := by
  induction s generalizing rest with
  | nil => rfl
  | cons c s ih =>
    rw [reverse_cons, append_assoc, singleton_append, ih (forall_mem_cons.mp hstep).2]
    exact run_of_step (hstep c mem_cons_self _ _) (hopen _)

theorem run_word {w : Text} (hw : isBareWord w) (hn : n ≠ 0) :
    Scan.run around (w.reverse ++ rest) (outside items buffer n) =
      Scan.run around rest (outside items (w ++ buffer) n) := by
  apply run_kept (fun b => outside items b n) (fun _ => hn)
  intro c hc b previous
  apply step_plain
  intro hm
  have hword : isWordChar c = false := by
    simp only [mem_cons, not_mem_nil, or_false] at hm
    rcases hm with rfl | rfl | rfl | rfl | rfl <;> rfl
  exact Attributes.not_mem_word hw hword hc

theorem step_quote {previous : Char} (h : previous ≠ '\\') :
    (outside items buffer n).step '"' previous = inside items ('"' :: buffer) n ∧
      (inside items buffer n).step '"' previous = outside items ('"' :: buffer) n := by
  constructor
  · simp [Scan.step, Scan.keep, outside, inside, h]
  · simp [Scan.step, Scan.unquoted, Scan.keep, outside, inside, h]

theorem run_quoted {d : Char} (hs : isItemText s) (hn : n ≠ 0) (hd : d ≠ '\\') :
    Scan.run around (('"' :: (s ++ ['"'])).reverse ++ d :: rest) (outside items buffer n) =
      Scan.run around (d :: rest) (outside items ('"' :: (s ++ ['"']) ++ buffer) n) := by
  obtain ⟨hquote, hslash⟩ := not_mem_itemText hs
  have hcut : ('"' :: (s ++ ['"'])).reverse ++ d :: rest = '"' :: (s.reverse ++ '"' :: d :: rest) := by simp
  have hprevious : (s.reverse ++ '"' :: d :: rest).head?.getD around ≠ '\\' := by
    cases hr : s.reverse with
    | nil => exact (by decide : '"' ≠ '\\')
    | cons c r =>
      rintro rfl
      exact hslash (mem_reverse.mp (hr ▸ mem_cons_self))
  have hkept : Scan.run around (s.reverse ++ '"' :: d :: rest) (inside items ('"' :: buffer) n) =
      Scan.run around ('"' :: d :: rest) (inside items (s ++ '"' :: buffer) n) := by
    apply run_kept (fun b => inside items b n) (fun _ => hn)
    intro c hc b previous
    exact step_inside (fun heq => hquote (heq ▸ hc)) previous
  rw [hcut, run_of_step (step_quote hprevious).1 hn, hkept, run_of_step (step_quote hd).2 hn]
  simp

theorem step_close (hn : 1 ≤ n) (previous : Char) :
    (outside items buffer n).step ']' previous = outside items (']' :: buffer) (n + 1) := by
  have hkeep : 1 < n + 1 := by omega
  simp [Scan.step, Scan.unquoted, Scan.keep, outside, hkeep]

theorem step_open (hn : 2 ≤ n) (previous : Char) :
    (outside items buffer n).step '[' previous = outside items ('[' :: buffer) (n - 1) := by
  have hkeep : 1 ≤ n - 1 := by omega
  simp [Scan.step, Scan.unquoted, Scan.keep, outside, hkeep]

theorem step_comma (hn : 2 ≤ n) (previous : Char) :
    (outside items buffer n).step ',' previous = outside items (',' :: buffer) n := by
  have hdeep : n ≠ 1 := by omega
  simp [Scan.step, Scan.unquoted, Scan.keep, outside, hdeep]

theorem step_space (previous : Char) :
    (outside items buffer n).step ' ' previous = outside items (' ' :: buffer) n :=
  step_plain _ (by decide) _

-- Inside an array a term is kept as it is written. The bracket of the array that holds it is open, so one
-- bracket is open at least; commas between items are kept where two are.
theorem reverse_textMore_cons (t : ArrayTerm) (ts : List ArrayTerm) (rest : Text) :
    (textMore (t :: ts)).reverse ++ rest = (textMore ts).reverse ++ ((text t).reverse ++ ' ' :: ',' :: rest) := by
  simp [textMore]

mutual
theorem run_text : ∀ (t : ArrayTerm) {d : Char} {rest buffer : Text} {n : Int}, 1 ≤ n → d ≠ '\\' →
    Scan.run around (t.text.reverse ++ d :: rest) (outside items buffer n) =
      Scan.run around (d :: rest) (outside items (t.text ++ buffer) n)
  | word w h, _, _, _, _, hn, _ => run_word h (by omega)
  | quoted s h, _, _, _, _, hn, hd => run_quoted h (by omega) hd
  | list t ts, d, rest, buffer, n, hn, _ => by
    have hcut : (text (list t ts)).reverse ++ d :: rest =
        ']' :: ((textMore ts).reverse ++ ((text t).reverse ++ '[' :: d :: rest)) := by simp [text]
    have hclosed : (outside items buffer (n + 1)).brackets ≠ 0 := by
      change n + 1 ≠ 0
      omega
    have hopened : (outside items buffer (n + 1 - 1)).brackets ≠ 0 := by
      change n + 1 - 1 ≠ 0
      omega
    rw [hcut, run_of_step (step_close hn _) hclosed, run_textMore ts (by omega),
      run_text t (by omega) (by decide), run_of_step (step_open (by omega) _) hopened, Int.add_sub_cancel]
    simp [text]

theorem run_textMore : ∀ (ts : List ArrayTerm) {rest buffer : Text} {n : Int}, 2 ≤ n →
    Scan.run around ((textMore ts).reverse ++ rest) (outside items buffer n) =
      Scan.run around rest (outside items (textMore ts ++ buffer) n)
  | [], _, _, _, _ => rfl
  | t :: ts, rest, buffer, n, hn => by
    have hopen : (outside items buffer n).brackets ≠ 0 := by
      change n ≠ 0
      omega
    rw [reverse_textMore_cons, run_textMore ts hn, run_text t (by omega) (by decide), run_of_step (step_space _) hopen,
      run_of_step (step_comma hn _) hopen]
    simp [textMore]
end

theorem run_items (ts : List ArrayTerm) (items : List Text) :
    Scan.run around ((textMore ts).reverse ++ rest) (outside items [] 1) =
      Scan.run around rest (outside (ts.map text ++ items) [] 1) := by
  induction ts generalizing rest with
  | nil => rfl
  | cons t ts ih =>
    have hitem : trim (' ' :: text t) = text t := by
      have htrim := trim_append_solid (a := [' ']) (b := []) (by decide) (by simp) (solid_text t)
      rwa [append_nil] at htrim
    have hcomma : ∀ previous, (outside (ts.map text ++ items) (' ' :: text t) 1).step ',' previous =
        outside (text t :: (ts.map text ++ items)) [] 1 := by
      intro previous
      simp [Scan.step, Scan.unquoted, Scan.closeItem, outside, hitem]
    rw [reverse_textMore_cons, ih, run_text t (Int.le_refl 1) (by decide), append_nil,
      run_of_step (step_space _) Int.one_ne_zero, run_of_step (hcomma _) Int.one_ne_zero]
    rfl

theorem lastArray_text (pre : Text) (t : ArrayTerm) (ts : List ArrayTerm) :
    lastArray (pre ++ text (list t ts)) = ((t :: ts).map text, pre.length) := by
  have hcut : (pre ++ text (list t ts)).reverse =
      ']' :: ((textMore ts).reverse ++ ((text t).reverse ++ '[' :: pre.reverse)) := by simp [text]
  have hclose : ∀ previous, Scan.step {} ']' previous = outside [] [] 1 := fun _ => rfl
  have hopen : ∀ previous, (outside (ts.map text) (text t) 1).step '[' previous =
      outside (ts.map text) (text t) 0 := fun _ => rfl
  have hne : (text t).isEmpty = false := isEmpty_eq_false_iff.mpr (solid_text t).ne_nil
  rw [lastArray, hcut]
  simp only
  rw [run_of_step (hclose _) Int.one_ne_zero, run_items, append_nil, run_text t (Int.le_refl 1) (by decide),
    append_nil, Scan.run, hopen]
  simp [outside, hne, Scan.closeItem, (solid_text t).trim_eq]

/-! ## One index -/

theorem not_mem_ofNat (i : Nat) (hc : c.isDigit = false) : c ∉ ofNat i :=
  not_mem_of_all (fun _ hd => isDigit_of_mem_ofNat hd) hc

theorem before_cut? {x : Text} (hx : ']' ∉ x) (y : Text) :
    before (((cut? (x ++ ']' :: y) "][").map (·.1)).getD (x ++ ']' :: y)) "]" = x := by
  cases hcut : cut? (x ++ ']' :: y) "][" with
  | none => exact before_append_cons hx
  | some z =>
    obtain ⟨a, b⟩ := z
    change before a "]" = x
    rcases append_eq_append_iff.mp (eq_of_cut? hcut) with ⟨v, rfl, hv⟩ | ⟨v, rfl, hv⟩
    · cases v with
      | nil =>
        rw [append_nil]
        exact before_eq_self (has_eq_false_of_not_mem (c := ']') (by decide) hx)
      | cons d v =>
        obtain ⟨rfl, _⟩ := cons.inj hv
        exact before_append_cons hx
    · cases v with
      | nil =>
        rw [append_nil] at hx ⊢
        exact before_eq_self (has_eq_false_of_not_mem (c := ']') (by decide) hx)
      | cons d v =>
        obtain ⟨rfl, _⟩ := cons.inj hv
        exact absurd (mem_append_right _ mem_cons_self) hx

theorem item?_ofNat (items : List Text) (i : Nat) : item? items (i : Int) = items[i]? := by
  rw [item?, if_neg (by omega), Int.toNat_natCast]

def indexedLine (pre : Text) (t : ArrayTerm) (path : List Nat) (suf : Text) : Text :=
  pre ++ (text t ++ (indexes path ++ suf))

theorem indexes_cons (i : Nat) (path : List Nat) : indexes (i :: path) = indexText i ++ indexes path := by
  simp [indexes]

variable {pre suf : Text} {t : ArrayTerm} {ts : List ArrayTerm} {i : Nat} {path : List Nat}

theorem beforeOpening_opened (hpre : ']' ∉ pre) (t : ArrayTerm) (ts : List ArrayTerm) :
    BeforeOpening (· ≠ ']') (pre ++ opened t ts ++ [']']) := by
  rw [append_assoc, ← text_eq_opened]
  exact beforeOpening_append hpre (beforeOpening_text (list t ts))

theorem resolveFirst_indexedLine (hpre : ']' ∉ pre) :
    resolveFirst (indexedLine pre (list t ts) (i :: path) suf) = match (t :: ts)[i]? with
      | none => .error (.rejected .brokenIndex)
      | some u => .ok (replace (indexedLine pre (list t ts) (i :: path) suf)
          (text (list t ts) ++ indexText i) u.text) := by
  have hline : indexedLine pre (list t ts) (i :: path) suf =
      (pre ++ opened t ts) ++ ']' :: '[' :: (ofNat i ++ ']' :: (indexes path ++ suf)) := by
    simp [indexedLine, text_eq_opened, indexes_cons, indexText]
  have hcut := cut?_brackets (beforeOpening_opened hpre t ts) (ofNat i ++ ']' :: (indexes path ++ suf))
  have harray : lastArray (pre ++ opened t ts ++ [']']) = ((t :: ts).map text, pre.length) := by
    rw [append_assoc, ← text_eq_opened]
    exact lastArray_text pre t ts
  have hindex := before_cut? (not_mem_ofNat i (c := ']') (by decide)) (indexes path ++ suf)
  have hnumber : readInt? 10 (ofNat i) = some (i : Int) := readInt?_ofInt i
  have hitem : item? ((t :: ts).map text) (i : Int) = ((t :: ts)[i]?).map text := by
    rw [item?_ofNat, getElem?_map]
  have hindexed : ((indexedLine pre (list t ts) (i :: path) suf).take
      ((pre ++ opened t ts).length + (ofNat i).length + 3)).drop pre.length =
        text (list t ts) ++ indexText i := by
    have hsplit : indexedLine pre (list t ts) (i :: path) suf =
        (pre ++ (text (list t ts) ++ indexText i)) ++ (indexes path ++ suf) := by
      simp [indexedLine, indexes_cons]
    have hlength : (pre ++ opened t ts).length + (ofNat i).length + 3 =
        (pre ++ (text (list t ts) ++ indexText i)).length := by
      simp [text_eq_opened, indexText]
      omega
    rw [hsplit, hlength, take_left, drop_left]
  unfold resolveFirst
  rw [hline, hcut, ← hline]
  simp only [harray, hindex, hnumber, hitem, hindexed]
  cases (t :: ts)[i]? <;> rfl

theorem not_prefix_before (hpre : ']' ∉ pre) {y : Text} (hy : y <:+ pre) (hne : y ≠ []) (s : Text) :
    ¬ text (list t ts) ++ indexText i <+: y ++ (text (list t ts) ++ indexText i ++ s) := by
  rintro ⟨r, hr⟩
  have hfree : ']' ∉ y := fun hm => hpre (hy.subset hm)
  have hcut := cut?_brackets (beforeOpening_opened hfree t ts) (ofNat i ++ ']' :: s)
  have hcut' := cut?_brackets (beforeOpening_opened not_mem_nil t ts) (ofNat i ++ ']' :: r)
  have heq : [] ++ opened t ts ++ ']' :: '[' :: (ofNat i ++ ']' :: r) =
      y ++ opened t ts ++ ']' :: '[' :: (ofNat i ++ ']' :: s) := by
    simpa [text_eq_opened, indexText] using hr
  rw [heq, hcut] at hcut'
  have hsame := (Prod.mk.inj (Option.some.inj hcut')).1
  have hlength := congrArg length hsame
  simp only [length_append, length_nil, Nat.zero_add] at hlength
  exact hne (length_eq_zero_iff.mp (by omega))

theorem beforeOpening_indexes (hsuf : '[' ∉ suf) (path : List Nat) :
    BeforeOpening (· = ']') (indexes path ++ suf) := by
  induction path with
  | nil => exact beforeOpening_of_not_mem hsuf _
  | cons i path ih =>
    have hnumber : '[' ∉ ofNat i := not_mem_ofNat i (by decide)
    have hindex : BeforeOpening (· = ']') (indexText i) := by
      refine IsChain.cons (beforeOpening_of_not_mem (by simpa using hnumber) _) ?_
      rintro b hb rfl
      exact absurd (mem_of_mem_head? hb) (by simpa using hnumber)
    rw [indexes_cons, append_assoc]
    apply IsChain.append hindex ih
    intro a ha _ _ _
    have hlast : (indexText i).getLast? = some ']' := getLast?_concat (l := '[' :: ofNat i)
    rw [hlast] at ha
    exact (Option.some.inj ha).symm

theorem infix_text_of_mem (h : u ∈ t :: ts) : ∃ c, c ≠ ']' ∧ c :: text u <:+: text (list t ts) := by
  have hmore : ∀ ts : List ArrayTerm, u ∈ ts → ' ' :: text u <:+: textMore ts := by
    intro ts hm
    induction ts with
    | nil => cases hm
    | cons v vs ih =>
      rw [textMore]
      rcases mem_cons.mp hm with rfl | hm
      · exact ⟨[','], textMore vs, by simp⟩
      · exact (ih hm).trans ⟨',' :: ' ' :: text v, [], by simp⟩
  rcases mem_cons.mp h with rfl | hm
  · exact ⟨'[', by decide, [], textMore ts ++ [']'], by simp [text]⟩
  · exact ⟨' ', by decide, (hmore ts hm).trans ⟨'[' :: text t, [']'], by simp [text]⟩⟩

theorem not_infix_after (hsuf : '[' ∉ suf) (hu : u ∈ t :: ts) (hlist : path = [] ∨ ∃ v vs, u = list v vs) :
    ¬ text (list t ts) ++ indexText i <:+: indexes path ++ suf := by
  intro hoccurs
  rcases hlist with rfl | ⟨v, vs, rfl⟩
  · exact hsuf (hoccurs.subset (by simp [text]))
  · obtain ⟨c, hc, hitem⟩ := infix_text_of_mem hu
    have hpair : [c, '['] <:+: indexes path ++ suf := by
      have hstart : [c, '['] <+: c :: text (list v vs) := ⟨text v ++ (textMore vs ++ [']']), by simp [text]⟩
      exact hstart.isInfix.trans (hitem.trans ((prefix_append _ _).isInfix.trans hoccurs))
    have hmeet := IsChain.infix (beforeOpening_indexes hsuf path) hpair
    exact hc (isChain_pair.mp hmeet rfl)

theorem resolveFirst_item (hpre : ']' ∉ pre) (hsuf : '[' ∉ suf) (hu : (t :: ts)[i]? = some u)
    (hlist : path = [] ∨ ∃ v vs, u = list v vs) :
    resolveFirst (indexedLine pre (list t ts) (i :: path) suf) = .ok (indexedLine pre u path suf) := by
  have hafter := not_infix_after (i := i) hsuf (mem_of_getElem? hu) hlist
  have hcut : indexedLine pre (list t ts) (i :: path) suf =
      pre ++ (text (list t ts) ++ indexText i ++ (indexes path ++ suf)) := by
    simp [indexedLine, indexes_cons]
  rw [resolveFirst_indexedLine hpre, hu]
  simp only
  rw [hcut, replace_append_of_clear fun y hy hne => not_prefix_before hpre hy hne _,
    replace_append_self (by simp [text]), replace_eq_self ((has_eq_false_iff _ _).mpr hafter)]
  rfl

/-! ## Paths -/

theorem exists_list_of_at? (h : t.at? (i :: path) = some u) :
    ∃ v vs w, t = list v vs ∧ (v :: vs)[i]? = some w ∧ w.at? path = some u := by
  cases t with
  | word w hw | quoted s hs => cases h
  | list v vs =>
    rw [at?] at h
    split at h
    · exact ⟨v, vs, _, rfl, ‹_›, h⟩
    · cases h

theorem eq_or_list_of_at? (h : t.at? path = some u) : (path = [] ∧ t = u) ∨ ∃ v vs, t = list v vs := by
  cases path with
  | nil => exact .inl ⟨rfl, Option.some.inj h⟩
  | cons i path =>
    obtain ⟨v, vs, _, ht, _⟩ := exists_list_of_at? h
    exact .inr ⟨v, vs, ht⟩

theorem has_indexedLine (t : ArrayTerm) (ts : List ArrayTerm) (i : Nat) (path : List Nat) :
    (indexedLine pre (list t ts) (i :: path) suf).has "][" := by
  rw [has_iff_isInfix]
  refine ⟨pre ++ opened t ts, ofNat i ++ ']' :: (indexes path ++ suf), ?_⟩
  simp [indexedLine, text_eq_opened, indexes_cons, indexText]

theorem has_unindexedLine (hpre : ']' ∉ pre) (hsuf : '[' ∉ suf) (t : ArrayTerm) :
    (indexedLine pre t [] suf).has "][" = false := by
  rw [← beforeOpening_iff]
  apply beforeOpening_append hpre
  exact (beforeOpening_text t).append (beforeOpening_of_not_mem hsuf _) fun hm => hsuf (mem_of_mem_head? hm)

theorem runs_at? (hpre : ']' ∉ pre) (hsuf : '[' ∉ suf) (h : t.at? path = some u) :
    Runs (indexedLine pre t path suf) (.ok (indexedLine pre u [] suf)) := by
  induction path generalizing t with
  | nil =>
    obtain rfl := Option.some.inj h
    exact .done (has_unindexedLine hpre hsuf t)
  | cons i path ih =>
    obtain ⟨v, vs, w, rfl, hw, hrest⟩ := exists_list_of_at? h
    have hlist : path = [] ∨ ∃ x xs, w = list x xs := (eq_or_list_of_at? hrest).imp_left And.left
    exact .step (has_indexedLine v vs i path) (resolveFirst_item hpre hsuf hw hlist) (ih hrest)

theorem runs_leaves (hpre : ']' ∉ pre) (hsuf : '[' ∉ suf) {before after : List Nat}
    {us : List ArrayTerm} (h : t.at? before = some (list u us)) (hi : (u :: us).length ≤ i) :
    Runs (indexedLine pre t (before ++ i :: after) suf) (.error (.rejected .brokenIndex)) := by
  induction before generalizing t with
  | nil =>
    obtain rfl := Option.some.inj h
    refine .failed (has_indexedLine u us i after) ?_
    rw [nil_append, resolveFirst_indexedLine hpre, getElem?_eq_none hi]
  | cons j before ih =>
    obtain ⟨v, vs, w, rfl, hw, hrest⟩ := exists_list_of_at? h
    have hlist : ∃ x xs, w = list x xs := (eq_or_list_of_at? hrest).elim (fun hw => ⟨u, us, hw.2⟩) id
    exact .step (has_indexedLine v vs j _) (resolveFirst_item hpre hsuf hw (.inr hlist)) (ih hrest)

end ArrayTerm

namespace ArrayIndex
open ArrayTerm

/-- Between text without closing brackets and text without opening ones, an array with a path of
indexes gives way to the item at the end of the path; a path that leaves an array on its way is rejected. -/
theorem resolve_path (t : ArrayTerm) (ts : List ArrayTerm) (path : List Nat) (pre suf : Text) (hpre : ']' ∉ pre)
    (hsuf : '[' ∉ suf) :
    (∀ u, (list t ts).at? path = some u →
      resolve (pre ++ text (list t ts) ++ indexes path ++ suf) = .ok (pre ++ text u ++ suf)) ∧
    ((list t ts).LeavesRange path →
      resolve (pre ++ text (list t ts) ++ indexes path ++ suf) = .error (.rejected .brokenIndex)) := by
  have hline : ∀ (u : ArrayTerm) (path : List Nat),
      pre ++ text u ++ indexes path ++ suf = indexedLine pre u path suf := by
    intro u path
    simp [indexedLine]
  rw [hline]
  constructor
  · intro u hu
    rw [(runs_at? hpre hsuf hu).resolve_eq]
    simp [indexedLine, indexes]
  · rintro ⟨before, i, after, u, us, rfl, hu, hi⟩
    exact (runs_leaves hpre hsuf hu hi).resolve_eq

/-- Quotes hide a comma, brackets and an apostrophe; the second index of the last path is too large. -/
theorem resolve_path_sample :
    ']' ∉ "[p(x=".toList ∧ '[' ∉ "])".toList ∧
      resolve "[p(x=[\"a, ]'\", [x, \"[b\"], y][1][1]])" = .ok "[p(x=\"[b\"])" ∧
      resolve "[p(x=[\"a, ]'\", [x, \"[b\"], y][1][2][0]])" = .error (.rejected .brokenIndex) := by
  have hpath := fun path => resolve_path (quoted "a, ]'" (by decide))
    [list (word ['x'] (by decide)) [quoted "[b" (by decide)], word ['y'] (by decide)] path
    "[p(x=" "])" (by decide) (by decide)
  refine ⟨by decide, by decide, (hpath [1, 1]).1 (quoted "[b" (by decide)) rfl, (hpath [1, 2, 0]).2 ?_⟩
  exact ⟨[1], 2, [0], word ['x'] (by decide), [quoted "[b" (by decide)], rfl, rfl, by decide⟩

end ArrayIndex
end OutlineMarkup
