import OutlineMarkup.Proofs.Documents
import OutlineMarkup.Proofs.GrammarLines
import OutlineMarkup.Proofs.RootPaths

/-!
# Inheritance of attributes

The lines of a grammar form a forest. A tag allows the attributes that are listed on the path from the
root to its line, and a tag that is listed more than once allows those of all its paths. The star
allows every attribute; it cannot be merged with a list, so a tag with the star on one of its paths may
be listed only once.
-/

namespace OutlineMarkup
open List Text

/-! ## The first of equal texts -/

theorem distinct_cons (a : Text) (l : List Text) :
    distinct (a :: l) = a :: (distinct l).filter fun b => !(a == b) := rfl

theorem mem_distinct (l : List Text) (a : Text) : a ∈ distinct l ↔ a ∈ l := by
  induction l with
  | nil => exact Iff.rfl
  | cons b l ih =>
    rw [distinct_cons, mem_cons, mem_cons, mem_filter, ih]
    by_cases h : a = b
    · simp [h]
    · simp [h, Ne.symm h]

theorem pairwise_distinct (l : List Text) : (distinct l).Pairwise fun a b => l.idxOf a < l.idxOf b := by
  induction l with
  | nil => exact Pairwise.nil
  | cons a l ih =>
    have hshift : ∀ b ∈ (distinct l).filter (fun b => !(a == b)), (a :: l).idxOf b = l.idxOf b + 1 := by
      intro b hb
      have hne : a ≠ b := by simpa using (mem_filter.mp hb).2
      exact idxOf_cons_ne l hne
    rw [distinct_cons, pairwise_cons]
    constructor
    · intro b hb
      rw [idxOf_cons_self, hshift b hb]
      exact Nat.succ_pos _
    · apply (ih.filter _).imp_of_mem
      intro b c hb hc hlt
      rw [hshift b hb, hshift c hc]
      exact Nat.succ_lt_succ hlt

namespace Grammar

/-! ## Lines of tags with attributes -/

def isTermChar (c : Char) : Bool := !(Text.isBlank c || c == ',' || c == '#' || c == '\\')

def isTerm (w : Text) : Bool := !w.isEmpty && w.all isTermChar

/-- A tag in angle brackets, with the attributes that are listed behind a gap. -/
structure Entry where
  name : Text
  closing : Closing
  gap : Text
  attributes : List Text

namespace Entry

def mark (e : Entry) : Text :=
  match e.closing with
  | .normal => []
  | .separate => ['+']
  | .single => ['-']

def tag (e : Entry) : Text := '<' :: (e.name ++ '>' :: e.mark)

def written (e : Entry) : Text := e.tag ++ e.gap ++ Text.join ", " e.attributes

def isFormed (e : Entry) : Bool :=
  isTerm e.name && e.gap.all (fun c => c == ' ' || c == '\t') && e.attributes.all isTerm &&
    (e.attributes.isEmpty || !e.gap.isEmpty)

end Entry

/-- Tags with attributes at their depths, line by line. -/
abbrev Listing := List (Nat × Entry)

/-- The lines with the attributes on their paths from the root down. Before them there are lines with
the attributes that `history` gives, the latest first. -/
def inheritedFrom (history : List (Nat × List Text)) : Listing → List (Entry × List Text)
  | [] => []
  | (depth, e) :: rest =>
    let history := (depth, e.attributes) :: history
    (e, ((Nesting.rootPath history).map Prod.snd).reverse.flatten) :: inheritedFrom history rest

/-- The lines among others that list a tag. -/
def occurrences (xs : List (Entry × List Text)) (name : Text) : List (Entry × List Text) :=
  xs.filter (·.1.name == name)

/-- The star is on the path of a tag that is listed more than once. -/
def Clashes (xs : List (Entry × List Text)) : Prop :=
  ∃ x ∈ xs, x.1.name ≠ ['.'] ∧ ['*'] ∈ x.2 ∧ 1 < (occurrences xs x.1.name).length

instance (xs : List (Entry × List Text)) : Decidable (Clashes xs) :=
  inferInstanceAs (Decidable (∃ x ∈ xs, _ ∧ _ ∧ _))

namespace Listing

def lines (unit : Text) (l : Listing) : List Text := l.map fun (depth, e) => unit.times depth ++ e.written

def isFormed (l : Listing) : Bool := l.all (·.2.isFormed)

def inherited (l : Listing) : List (Entry × List Text) := inheritedFrom [] l

end Listing

/-! ## Words of a line -/

variable {w b : Text} {ws : List Text} {c : Char} {e : Entry} {l : Listing}

theorem isTerm_iff (w : Text) : isTerm w ↔ w ≠ [] ∧ ∀ c ∈ w, isTermChar c := by simp [isTerm]

theorem isBlank_of_isTermChar (h : isTermChar c) : isBlank c = false := by
  simp only [isTermChar, Bool.not_eq_true', Bool.or_eq_false_iff] at h
  exact h.1.1.1

theorem words_term (hw : isTerm w) (hb : ∀ c ∈ b, c = ',') : (w ++ b).words = [w ++ b] := by
  obtain ⟨hne, hall⟩ := (isTerm_iff w).mp hw
  apply words_of_forall (by simp [hne])
  intro c hc
  rcases mem_append.mp hc with hc | hc
  · exact isBlank_of_isTermChar (hall c hc)
  · rw [hb c hc]
    rfl

theorem cutAtCommas_term (hw : isTerm w) (hb : ∀ c ∈ b, c = ',') : cutAtCommas (w ++ b) = [w] := by
  obtain ⟨hne, hall⟩ := (isTerm_iff w).mp hw
  have hcomma : ∀ c ∈ w, (c == ',') = false := by
    intro c hc
    have := hall c hc
    simp only [isTermChar, Bool.not_eq_true', Bool.or_eq_false_iff] at this
    exact this.1.1.2
  have hdrop : ∀ s : Text, (∀ c ∈ s, (c == ',') = false) → s.dropWhile (· == ',') = s :=
    fun s hs => dropWhile_eq_self_iff.mpr fun hlength => by simp [hs _ (getElem_mem hlength)]
  have htrim : (w ++ b).trimOf (· == ',') = w := by
    obtain ⟨d, r, rfl⟩ := exists_cons_of_ne_nil hne
    rw [trimOf, cons_append, dropWhile_cons_of_neg (by simp [hcomma d mem_cons_self]),
      dropRightWhile, ← cons_append, reverse_append, dropWhile_append_of_pos (by simpa using hb),
      hdrop _ fun c hc => hcomma c (mem_reverse.mp hc), reverse_reverse]
  rw [cutAtCommas, htrim]
  exact pieces_of_forall_not hcomma

theorem flatMap_words_join (h : ∀ w ∈ ws, isTerm w) : (join ", " ws).words.flatMap cutAtCommas = ws := by
  induction ws with
  | nil => rfl
  | cons w ws ih =>
    have hw := h w mem_cons_self
    cases ws with
    | nil =>
      have hword := words_term hw (b := []) (by simp)
      have hcut := cutAtCommas_term hw (b := []) (by simp)
      rw [append_nil] at hword hcut
      rw [join, intercalate_singleton, hword, flatMap_singleton, hcut]
    | cons v ws =>
      have hjoin : join ", " (w :: v :: ws) = (w ++ [',']) ++ ' ' :: join ", " (v :: ws) := by
        rw [join_cons_cons]
        simp
      rw [hjoin, words_append_cons rfl, flatMap_append, ih (forall_mem_cons.mp h).2,
        words_term hw (by simp), flatMap_singleton, cutAtCommas_term hw (by simp)]
      rfl

namespace Entry
variable {u : Text} {k : Nat} {feed : Text}

theorem isFormed_iff (e : Entry) : e.isFormed ↔ isTerm e.name ∧ (∀ c ∈ e.gap, c = ' ' ∨ c = '\t') ∧
    (∀ w ∈ e.attributes, isTerm w) ∧ (e.attributes = [] ∨ e.gap ≠ []) := by
  simp [isFormed, and_assoc]

theorem isTerm_tag (h : e.isFormed) : isTerm e.tag := by
  have hname := ((isTerm_iff _).mp ((isFormed_iff e).mp h).1).2
  refine (isTerm_iff _).mpr ⟨cons_ne_nil _ _, ?_⟩
  simp only [tag, mem_cons, mem_append]
  rintro c (rfl | hc | rfl | hc)
  · rfl
  · exact hname c hc
  · rfl
  · cases hclosing : e.closing <;> simp only [mark, hclosing, not_mem_nil, mem_singleton] at hc <;>
      rw [hc] <;> rfl

theorem readTag_tag (e : Entry) : readTag e.tag = .ok (e.name, e.closing) := by
  have hslice : ∀ s : Text, s ≠ [] → slice ('<' :: (e.name ++ s)) 1 (-s.length) = e.name := by
    intro s hs
    have hpos := length_pos_of_ne_nil hs
    have hstart : clampIndex ('<' :: (e.name ++ s)).length 1 = 1 := by simp [clampIndex]
    have hstop : clampIndex ('<' :: (e.name ++ s)).length (-s.length) = e.name.length + 1 := by
      rw [clampIndex, if_pos (by omega), length_cons, length_append]
      omega
    simp only [slice, hstart, hstop, take_succ_cons, take_left, drop_succ_cons, drop_zero]
  have hlast : ∀ s : Text, ('<' :: (e.name ++ '>' :: s)).getLast? = ('>' :: s).getLast? := by
    intro s
    rw [← cons_append, getLast?_append_of_ne_nil _ (cons_ne_nil _ _)]
  cases hclosing : e.closing <;> simp only [readTag, tag, mark, hclosing, hlast] <;>
    exact congrArg (fun name => Except.ok (name, _)) (hslice _ (cons_ne_nil _ _))

theorem words_written (h : e.isFormed) : e.written.words = e.tag :: (join ", " e.attributes).words := by
  obtain ⟨_, hgap, _, hrest⟩ := (isFormed_iff e).mp h
  have hblank : ∀ c ∈ e.gap, isBlank c := by
    intro c hc
    rcases hgap c hc with rfl | rfl <;> rfl
  have htag := words_term (isTerm_tag h) (b := []) (by simp)
  rw [append_nil] at htag
  rcases hrest with hnil | hne
  · rw [written, hnil, append_assoc, words_append_blank, htag]
    · rfl
    · simpa [join] using hblank
  · rw [written, words_append_blank_append hne hblank, htag]
    rfl

theorem words_sourceLine (hu : isUnit u) (hfeed : LineEnd feed) :
    (sourceLine u k e.written feed).words = e.written.words := by
  rw [sourceLine, words_blank_append (isBlank_of_mem_times hu), words_append_blank]
  rcases hfeed with rfl | rfl <;> simp [isBlank]

theorem entries_sourceLine (h : e.isFormed) (hu : isUnit u) (hfeed : LineEnd feed) :
    entries (sourceLine u k e.written feed) = e.tag :: e.attributes := by
  have hcut := cutAtCommas_term (isTerm_tag h) (b := []) (by simp)
  rw [append_nil] at hcut
  rw [entries_eq, words_sourceLine hu hfeed, words_written h, flatMap_cons, hcut,
    flatMap_words_join ((isFormed_iff e).mp h).2.2.1]
  rfl

theorem mem_written (h : e.isFormed) (hc : c ∈ e.written) : isTermChar c ∨ c = ',' ∨ c = ' ' ∨ c = '\t' := by
  obtain ⟨_, hgap, hattributes, _⟩ := (isFormed_iff e).mp h
  rw [written, mem_append, mem_append] at hc
  rcases hc with (hc | hc) | hc
  · exact .inl (((isTerm_iff _).mp (isTerm_tag h)).2 c hc)
  · exact .inr (.inr (hgap c hc))
  · rcases mem_join hc with hc | ⟨w, hw, hc⟩
    · have : c = ',' ∨ c = ' ' := by simpa using hc
      exact .inr (this.imp_right .inl)
    · exact .inl (((isTerm_iff w).mp (hattributes w hw)).2 c hc)

theorem not_mem_line (h : e.isFormed) (hu : isUnit u) (hterm : isTermChar c = false)
    (hother : c ≠ ',' ∧ c ≠ ' ' ∧ c ≠ '\t') : c ∉ u.times k ++ e.written := by
  rw [mem_append]
  rintro (hc | hc)
  · rcases ((isUnit_iff u).mp hu).2 c (mem_times hc) with rfl | rfl
    · exact hother.2.1 rfl
    · exact hother.2.2 rfl
  · rcases mem_written h hc with hc | rfl | rfl | rfl
    · rw [hterm] at hc
      cases hc
    · exact hother.1 rfl
    · exact hother.2.1 rfl
    · exact hother.2.2 rfl

theorem readLines_sourceLine (h : e.isFormed) (hu : isUnit u) (hfeed : LineEnd feed)
    {n : Nesting (List Text)} {t : TagTable} {rest : List Text} :
    readLines [] n t (sourceLine u k e.written feed :: rest) =
      readThen n t (sourceLine u k e.written feed) rest := by
  have hsigns : ∀ c, isTermChar c = false → c ≠ ',' ∧ c ≠ ' ' ∧ c ≠ '\t' → c ∉ feed →
      c ∉ sourceLine u k e.written feed := by
    intro c hterm hother hc hm
    rw [sourceLine, ← append_assoc] at hm
    rcases mem_append.mp hm with hm | hm
    · exact not_mem_line h hu hterm hother hm
    · exact hc hm
  apply readLines_plain
  · rw [words_sourceLine hu hfeed, words_written h]
    exact cons_ne_nil _ _
  · exact hsigns '#' rfl (by decide) (by rcases hfeed with rfl | rfl <;> decide)
  · exact hsigns '\\' rfl (by decide) (by rcases hfeed with rfl | rfl <;> decide)

end Entry

/-! ## Paths -/

variable {u feed : Text} {d : Nat} {history : List (Nat × List Text)} {n : Nesting (List Text)} {t : TagTable}

def room (history : List (Nat × List Text)) : Nat := (history.head?.map (·.1 + 1)).getD 0

/-- What a line with a path allows: everything, or the attributes on the path. -/
def allowed (path : List Text) : Option (List Text) := if ['*'] ∈ path then none else some (distinct path)

def definitionOf (x : Entry × List Text) : Definition :=
  if x.1.name = ['.'] then none else some (x.1.name, ⟨x.1.closing, allowed x.2⟩)

/-- The nesting is the one that lines written with a unit leave. -/
structure Stands (u : Text) (history : List (Nat × List Text)) (n : Nesting (List Text)) : Prop where
  follows : Nesting.Follows history n
  unit : n.indentation.unit = some u ∨ n.indentation.unit = none ∧ n.indentation.level = 0
  base : ∀ x ∈ history.getLast?, x.1 = 0

namespace Stands

theorem start (u : Text) : Stands u [] {} := ⟨.start, .inr ⟨rfl, rfl⟩, by simp⟩

variable (h : Stands u history n)
include h

theorem room_le : (room history : Int) ≤ n.indentation.level + 1 := by
  rw [h.follows.level]
  cases history with
  | nil => decide
  | cons x earlier => exact Int.le_refl _

theorem depth (hu : isUnit u) (hd : d ≤ room history) {rest : Text}
    (hc : rest.head? = some c) (hb : isBlank c = false) :
    ∃ t, n.indentation.depth (u.times d ++ rest) = .ok (d, t) ∧
      (t.unit = some u ∨ t.unit = none ∧ d = 0) := by
  have hindents := indents_of_isUnit hu
  have hroom := h.room_le
  rcases h.unit with hunit | ⟨hunit, hlevel⟩
  · exact ⟨_, Compile.depth_known hindents (.inl hunit) hc hb, .inl hunit⟩
  · cases d with
    | zero => exact ⟨_, Compile.depth_known hindents (.inr rfl) hc hb, .inr ⟨hunit, rfl⟩⟩
    | succ k =>
      -- The first indented line is one level deep, so its blanks are the unit.
      obtain rfl : k = 0 := by omega
      refine ⟨{ n.indentation with unit := some u }, ?_, .inl rfl⟩
      rw [Compile.depth_succ hindents hc hb, hunit, times_one]

theorem enter (hu : isUnit u) (hd : d ≤ room history) (rest : Text)
    (hc : rest.head? = some c) (hb : isBlank c = false) (a : List Text) :
    ∃ n', n.enter (u.times d ++ rest) a = (.ok (), n') ∧ Stands u ((d, a) :: history) n' := by
  obtain ⟨t, hdepth, hunit⟩ := h.depth hu hd hc hb
  have hroom := h.room_le
  rcases h.follows.enter_cases hdepth a with ⟨hdeep, _⟩ | ⟨base, hbase, hlow, _⟩ | ⟨_, _, henter⟩
  · omega
  · rw [h.base base hbase] at hlow
    omega
  · refine ⟨_, henter, ?_, ?_, ?_⟩
    · obtain ⟨d', t', hdepth', _, hfollows⟩ := h.follows.enter henter
      rw [hdepth] at hdepth'
      cases hdepth'
      exact hfollows
    · rcases hunit with hunit | ⟨hunit, hzero⟩
      · exact .inl hunit
      · exact .inr ⟨hunit, congrArg Int.ofNat hzero⟩
    · intro x hx
      cases history with
      | nil =>
        cases hx
        exact Nat.le_zero.mp hd
      | cons y earlier =>
        rw [getLast?_cons_cons] at hx
        exact h.base x hx

theorem readLine (hu : isUnit u) (hd : d ≤ room history) (he : e.isFormed)
    (hfeed : LineEnd feed) :
    ∃ n', Grammar.readLine n (sourceLine u d e.written feed) = (.ok (definitionOf (e,
        ((Nesting.rootPath ((d, e.attributes) :: history)).map Prod.snd).reverse.flatten)), n') ∧
      Stands u ((d, e.attributes) :: history) n' := by
  obtain ⟨n', henter, hn'⟩ := h.enter hu hd (e.written ++ feed) rfl rfl e.attributes
  refine ⟨n', ?_, hn'⟩
  rw [Grammar.readLine, Entry.entries_sourceLine he hu hfeed]
  simp only [Entry.readTag_tag, sourceLine, henter, hn'.follows.entries, contains_iff_mem, mem_distinct]
  rw [definitionOf]
  split <;> rfl

end Stands

def defineAll (t : TagTable) (xs : List (Entry × List Text)) : Except Fault TagTable :=
  xs.foldlM (fun t x => define t (definitionOf x)) t

theorem readLines_listing (hu : isUnit u) (hl : l.isFormed) (h : Stands u history n)
    (hhead : ∀ d ∈ (l.map (·.1)).head?, d ≤ room history)
    (hchain : (l.map (·.1)).IsChain fun d e => e ≤ d + 1) {raws : List Text}
    (hraws : Forall₂ IsEnded (l.lines u) raws) :
    readLines [] n t raws = defineAll t (inheritedFrom history l) := by
  induction l generalizing history n t raws with
  | nil =>
    cases hraws
    rfl
  | cons x l ih =>
    obtain ⟨d, e⟩ := x
    obtain ⟨he, hl⟩ : e.isFormed ∧ Listing.isFormed l := by simpa [Listing.isFormed] using hl
    cases hraws with
    | cons hraw hraws =>
      obtain ⟨feed, hfeed, rfl⟩ := hraw
      obtain ⟨n', hline, hn'⟩ := h.readLine hu (hhead d rfl) he hfeed
      change readLines [] n t ((u.times d ++ e.written ++ feed) :: _) = _
      rw [append_assoc, ← sourceLine, Entry.readLines_sourceLine he hu hfeed, readThen, hline, inheritedFrom,
        defineAll, foldlM_cons]
      simp only
      cases define t _ with
      | error f => rfl
      | ok t => exact ih hl hn' (fun e he => hchain.rel_head? he) hchain.tail hraws

theorem read_listing (hu : isUnit u) (hl : l.isFormed) (hw : WellIndented (l.map (·.1)))
    (terminated : Bool) : read (sourceText (l.lines u) terminated) = defineAll [] l.inherited := by
  have hlines : ∀ line ∈ l.lines u, line ≠ [] ∧ '\n' ∉ line := by
    intro line hline
    obtain ⟨⟨d, e⟩, hx, rfl⟩ := mem_map.mp hline
    have he : e.isFormed := all_eq_true.mp hl _ hx
    exact ⟨by simp [Entry.written, Entry.tag], Entry.not_mem_line he hu rfl (by decide)⟩
  rw [read, lines_sourceText hlines]
  exact readLines_listing hu hl (.start u) (fun d hd => (hw.2 d hd).le) hw.1 (forall₂_ended _ _)

/-! ## Tags that are listed more than once -/

variable {xs ys : List (Entry × List Text)} {x y : Entry × List Text} {name : Text} {rule : TagRule}

theorem mem_occurrences : y ∈ occurrences xs name ↔ y ∈ xs ∧ y.1.name = name := by simp [occurrences]

theorem occurrences_append_self (xs : List (Entry × List Text)) (x : Entry × List Text) :
    occurrences (xs ++ [x]) x.1.name = occurrences xs x.1.name ++ [x] := by simp [occurrences]

theorem occurrences_append_ne (h : x.1.name ≠ name) : occurrences (xs ++ [x]) name = occurrences xs name := by
  simp [occurrences, h]

theorem Clashes.append (h : Clashes xs) (ys : List (Entry × List Text)) : Clashes (xs ++ ys) := by
  obtain ⟨x, hx, hname, hstar, hlength⟩ := h
  refine ⟨x, mem_append_left _ hx, hname, hstar, ?_⟩
  rw [occurrences, filter_append, length_append]
  exact Nat.lt_add_right _ hlength

theorem star_not_mem (h : ¬ Clashes xs) (hname : name ≠ ['.']) (hy : y ∈ occurrences xs name)
    (hlength : 1 < (occurrences xs name).length) : ['*'] ∉ y.2 := by
  obtain ⟨hmem, rfl⟩ := mem_occurrences.mp hy
  exact fun hstar => h ⟨y, hmem, hname, hstar, hlength⟩

/-- What the lines of a tag add up to. -/
def ruleOf : List (Entry × List Text) → Option TagRule
  | [] => none
  | x :: rest => some ⟨x.1.closing, (allowed x.2).map (· ++ rest.flatMap fun y => distinct y.2)⟩

/-- The table has the rule that the lines of each tag add up to. -/
def Lists (xs : List (Entry × List Text)) (t : TagTable) : Prop :=
  ∀ name, t.get? name = if name = ['.'] then none else ruleOf (occurrences xs name)

theorem Lists.set (h : Lists xs t) (hname : x.1.name ≠ ['.'])
    (hrule : ruleOf (occurrences xs x.1.name ++ [x]) = some rule) :
    Lists (xs ++ [x]) (t.set x.1.name rule) := by
  intro name
  by_cases hx : x.1.name = name
  · subst hx
    rw [Table.get?_set_self, if_neg hname, occurrences_append_self, hrule]
  · rw [Table.get?_set_ne _ (Ne.symm hx), h name, occurrences_append_ne hx]

theorem Lists.define (h : Lists xs t) (hx : ¬ Clashes (xs ++ [x])) :
    ∃ t', Grammar.define t (definitionOf x) = .ok t' ∧ Lists (xs ++ [x]) t' := by
  by_cases hdot : x.1.name = ['.']
  · refine ⟨t, by rw [definitionOf, if_pos hdot]; rfl, ?_⟩
    intro name
    rw [h name]
    by_cases hname : name = ['.']
    · rw [if_pos hname, if_pos hname]
    · rw [occurrences_append_ne (hdot ▸ Ne.symm hname)]
  have hget := h x.1.name
  rw [if_neg hdot] at hget
  rw [definitionOf, if_neg hdot]
  cases hos : occurrences xs x.1.name with
  | nil =>
    rw [hos] at hget
    have hrule : ruleOf (occurrences xs x.1.name ++ [x]) = some ⟨x.1.closing, allowed x.2⟩ := by
      rw [hos]
      simp [ruleOf]
    exact ⟨_, by simp only [Grammar.define, hget, ruleOf], h.set hdot hrule⟩
  | cons y ys =>
    have hall := occurrences_append_self xs x
    rw [hos] at hget hall
    have hstar : ∀ z ∈ occurrences (xs ++ [x]) x.1.name, ['*'] ∉ z.2 := fun z hz =>
      star_not_mem hx hdot hz (by simp [hall])
    have hy := hstar y (by simp [hall])
    have hxs := hstar x (by simp [hall])
    simp only [ruleOf, allowed, if_neg hy, Option.map_some] at hget
    have hrule : ruleOf (occurrences xs x.1.name ++ [x]) = some ⟨y.1.closing,
        some (distinct y.2 ++ ys.flatMap (fun z => distinct z.2) ++ distinct x.2)⟩ := by
      rw [hos]
      simp [ruleOf, allowed, hy]
    exact ⟨_, by simp only [Grammar.define, hget, allowed, if_neg hxs], h.set hdot hrule⟩

theorem Lists.define_clash (h : Lists xs t) (hxs : ¬ Clashes xs) (hx : Clashes (xs ++ [x])) :
    Grammar.define t (definitionOf x) = .error
      (if ∃ y ∈ occurrences xs x.1.name, ['*'] ∈ y.2 then .unknownAttribute else .wrongType) := by
  obtain ⟨z, hz, hdot, hstar, hlength⟩ := hx
  have hname : x.1.name = z.1.name := by
    by_contra hne
    rw [occurrences_append_ne hne] at hlength
    have hzx : z ∈ xs := (mem_append.mp hz).resolve_right fun hm => hne (by rw [mem_singleton.mp hm])
    exact hxs ⟨z, hzx, hdot, hstar, hlength⟩
  rw [← hname] at hdot hlength
  rw [occurrences_append_self, length_append, length_singleton] at hlength
  have hget := h x.1.name
  rw [if_neg hdot] at hget
  rw [definitionOf, if_neg hdot]
  cases hos : occurrences xs x.1.name with
  | nil =>
    rw [hos, length_nil] at hlength
    omega
  | cons y ys =>
    rw [hos] at hget
    by_cases hy : ['*'] ∈ y.2
    · rw [if_pos ⟨y, mem_cons_self, hy⟩]
      simp [Grammar.define, hget, ruleOf, allowed, if_pos hy]
    · -- A star among earlier lines would have clashed, so it is the new line that has it.
      have hnone : ∀ w ∈ y :: ys, ['*'] ∉ w.2 := by
        intro w hw
        cases ys with
        | nil => rwa [mem_singleton.mp hw]
        | cons v vs => exact star_not_mem hxs hdot (hos ▸ hw) (by simp [hos])
      have hzx : z = x := by
        rcases mem_append.mp hz with hm | hm
        · exact absurd hstar (hnone z (hos ▸ mem_occurrences.mpr ⟨hm, hname.symm⟩))
        · exact mem_singleton.mp hm
      subst hzx
      rw [if_neg fun ⟨w, hw, hwstar⟩ => hnone w hw hwstar]
      simp [Grammar.define, hget, ruleOf, allowed, if_neg hy, if_pos hstar]

theorem defineAll_append (t : TagTable) (xs ys : List (Entry × List Text)) :
    defineAll t (xs ++ ys) = defineAll t xs >>= fun t => defineAll t ys := foldlM_append

theorem defineAll_ok (h : ¬ Clashes xs) : ∃ t, defineAll [] xs = .ok t ∧ Lists xs t := by
  induction xs using reverseRecOn with
  | nil => exact ⟨[], rfl, fun name => by simp [Table.get?, occurrences, ruleOf]⟩
  | append_singleton xs x ih =>
    obtain ⟨t, ht, hlists⟩ := ih fun hclash => h (hclash.append [x])
    obtain ⟨t', hdefine, hlists'⟩ := hlists.define h
    refine ⟨t', ?_, hlists'⟩
    rw [defineAll_append, ht]
    simp only [defineAll, foldlM_cons, foldlM_nil, bind, Except.bind, hdefine]
    rfl

theorem defineAll_clash (hxs : ¬ Clashes xs) (hx : Clashes (xs ++ [x])) (ys : List (Entry × List Text)) :
    defineAll [] (xs ++ x :: ys) = .error
      (if ∃ y ∈ occurrences xs x.1.name, ['*'] ∈ y.2 then .unknownAttribute else .wrongType) := by
  obtain ⟨t, ht, hlists⟩ := defineAll_ok hxs
  rw [defineAll_append, ht]
  simp [defineAll, bind, Except.bind, hlists.define_clash hxs hx]

theorem Clashes.exists_first (h : Clashes xs) :
    ∃ before x after, xs = before ++ x :: after ∧ ¬ Clashes before ∧ Clashes (before ++ [x]) := by
  induction xs using reverseRecOn with
  | nil =>
    obtain ⟨x, hx, _⟩ := h
    cases hx
  | append_singleton xs x ih =>
    by_cases hxs : Clashes xs
    · obtain ⟨before, y, after, rfl, hclash⟩ := ih hxs
      exact ⟨before, y, after ++ [x], by simp, hclash⟩
    · exact ⟨xs, x, [], rfl, hxs, h⟩

theorem Lists.ruleOf_eq (h : Lists xs t) (hget : t.get? name = some rule) :
    name ≠ ['.'] ∧ ruleOf (occurrences xs name) = some rule := by
  rw [h name] at hget
  split at hget
  · cases hget
  · exact ⟨‹_›, hget⟩

theorem Lists.attributes_eq_none_iff (h : Lists xs t) (hxs : ¬ Clashes xs) (hget : t.get? name = some rule) :
    rule.attributes = none ↔ ∃ x ∈ occurrences xs name, ['*'] ∈ x.2 := by
  obtain ⟨hdot, hrule⟩ := h.ruleOf_eq hget
  cases hos : occurrences xs name with
  | nil =>
    rw [hos] at hrule
    cases hrule
  | cons x rest =>
    rw [hos] at hrule
    cases hrule
    constructor
    · intro hnone
      by_contra hstar
      have hx : ['*'] ∉ x.2 := fun hx => hstar ⟨x, mem_cons_self, hx⟩
      simp [allowed, hx] at hnone
    · rintro ⟨y, hy, hstar⟩
      -- A line with the star is the only one.
      cases rest with
      | nil =>
        rw [mem_singleton.mp hy] at hstar
        simp [allowed, hstar]
      | cons v vs => exact absurd hstar (star_not_mem hxs hdot (hos ▸ hy) (by simp [hos]))

theorem names_inheritedFrom (history : List (Nat × List Text)) (l : Listing) :
    (inheritedFrom history l).map (·.1.name) = l.map (·.2.name) := by
  induction l generalizing history with
  | nil => rfl
  | cons x l ih => exact congrArg (x.2.name :: ·) (ih _)

theorem Lists.has_iff (h : Lists l.inherited t) : t.has name ↔ name ≠ ['.'] ∧ ∃ x ∈ l, x.2.name = name := by
  have hentries : (∃ x ∈ l, x.2.name = name) ↔ ∃ x ∈ l.inherited, x.1.name = name := by
    have hmap : name ∈ l.map (·.2.name) ↔ name ∈ l.inherited.map (·.1.name) := by
      rw [Listing.inherited, names_inheritedFrom]
    rwa [mem_map, mem_map] at hmap
  have hoccurs : (∃ x ∈ l.inherited, x.1.name = name) ↔ occurrences l.inherited name ≠ [] := by
    simp [occurrences]
  rw [Table.has, h name, hentries, hoccurs]
  by_cases hdot : name = ['.']
  · simp [hdot]
  · cases occurrences l.inherited name <;> simp [hdot, ruleOf]

/-! ## Main statements -/

/-- A grammar in which the star is on no path of a tag that is listed more than once lists every tag but
the one named by a point, each with the way of closing of its first line. A tag allows everything if
the star is on its path, and otherwise the attributes on its paths; those of a tag that is listed once
come in the order in which they are met from the root down. -/
theorem read_inherits {l : Listing} {u : Text} (terminated : Bool) (hu : isUnit u = true)
    (hl : l.isFormed = true) (hw : WellIndented (l.map (·.1))) (hclash : ¬ Clashes l.inherited) :
    ∃ tags, read (sourceText (l.lines u) terminated) = .ok tags ∧
      (∀ name, tags.has name = true ↔ name ≠ ['.'] ∧ ∃ x ∈ l, x.2.name = name) ∧
      ∀ name rule, tags.get? name = some rule →
        (occurrences l.inherited name).head?.map (·.1.closing) = some rule.closing ∧
        (rule.attributes = none ↔ ∃ x ∈ occurrences l.inherited name, ['*'] ∈ x.2) ∧
        ∀ as, rule.attributes = some as →
          (∀ a, a ∈ as ↔ ∃ x ∈ occurrences l.inherited name, a ∈ x.2) ∧
          ∀ x, occurrences l.inherited name = [x] →
            as.Nodup ∧ as.Pairwise fun a b => x.2.idxOf a < x.2.idxOf b := by
  obtain ⟨tags, htags, hlists⟩ := defineAll_ok hclash
  refine ⟨tags, (read_listing hu hl hw terminated).trans htags, fun name => hlists.has_iff, ?_⟩
  intro name rule hget
  refine ⟨?_, hlists.attributes_eq_none_iff hclash hget, ?_⟩
  all_goals
    obtain ⟨_, hrule⟩ := hlists.ruleOf_eq hget
    cases hos : occurrences l.inherited name <;> rw [hos] at hrule <;> cases hrule
  · rfl
  · rename_i x rest
    intro as has
    obtain ⟨first, hfirst, rfl⟩ := Option.map_eq_some_iff.mp has
    obtain rfl : distinct x.2 = first := by
      rw [allowed] at hfirst
      split at hfirst
      · cases hfirst
      · exact Option.some.inj hfirst
    refine ⟨fun a => by simp [mem_distinct], ?_⟩
    rintro y hy
    obtain ⟨rfl, rfl⟩ := cons.inj hy
    have hpairwise := pairwise_distinct x.2
    rw [flatMap_nil, append_nil]
    exact ⟨hpairwise.imp fun hlt heq => absurd (heq ▸ hlt) (Nat.lt_irrefl _), hpairwise⟩

/-- Attributes come down through a line that is no tag, and a tag is listed under two others. -/
def sampleListing : Listing :=
  [(0, ⟨".", .normal, " ", ["id", "class"]⟩), (1, ⟨"a", .separate, "\t", ["href", "id"]⟩),
    (2, ⟨"b", .single, "", []⟩), (1, ⟨"img", .single, " ", ["*"]⟩), (0, ⟨"b", .normal, "  ", ["x", "id"]⟩)]

theorem read_inherits_sample :
    ¬ Clashes sampleListing.inherited ∧
    ∃ tags, read (sourceText (sampleListing.lines "  ") true) = .ok tags ∧ tags.has "." = false ∧
      ∀ rule as, tags.get? "b" = some rule → rule.attributes = some as →
        rule.closing = .single ∧ "class".toList ∈ as ∧ "x".toList ∈ as ∧ "src".toList ∉ as := by
  have hclash : ¬ Clashes sampleListing.inherited := by decide
  refine ⟨hclash, ?_⟩
  obtain ⟨tags, hread, hhas, hrules⟩ :=
    read_inherits (l := sampleListing) (u := "  ") true (by decide) (by decide) (by decide) hclash
  refine ⟨tags, hread, ?_, ?_⟩
  · exact Bool.eq_false_iff.mpr fun h => ((hhas _).mp h).1 rfl
  · intro rule as hget has
    obtain ⟨hclosing, _, hattributes⟩ := hrules "b" rule hget
    have hmem := (hattributes as has).1
    exact ⟨(Option.some.inj hclosing).symm, (hmem _).mpr (by decide), (hmem _).mpr (by decide),
      fun h => absurd ((hmem _).mp h) (by decide)⟩

/-- A grammar can be read exactly if the star is on no path of a tag that is listed more than once; then a
tag allows everything if and only if the star is on one of its paths. Otherwise the first line at which
the star and another line of its tag come together ends with a fault, which tells whether the star came
first. -/
theorem read_ok_iff_not_clashes {l : Listing} {u : Text} (terminated : Bool) (hu : isUnit u = true)
    (hl : l.isFormed = true) (hw : WellIndented (l.map (·.1))) :
    ((∃ tags, read (sourceText (l.lines u) terminated) = .ok tags) ↔ ¬ Clashes l.inherited) ∧
    (∀ tags name rule, read (sourceText (l.lines u) terminated) = .ok tags →
      tags.get? name = some rule →
        (rule.attributes = none ↔ ∃ x ∈ occurrences l.inherited name, ['*'] ∈ x.2)) ∧
    ∀ (before after : List (Entry × List Text)) (x : Entry × List Text),
      l.inherited = before ++ x :: after → ¬ Clashes before → Clashes (before ++ [x]) →
      read (sourceText (l.lines u) terminated) = .error
        (if ∃ y ∈ occurrences before x.1.name, ['*'] ∈ y.2 then .unknownAttribute else .wrongType) := by
  rw [read_listing hu hl hw]
  have hok : ∀ tags, defineAll [] l.inherited = .ok tags → ¬ Clashes l.inherited := by
    intro tags htags hclash
    obtain ⟨before, x, after, hl, hbefore, hx⟩ := hclash.exists_first
    rw [hl, defineAll_clash hbefore hx] at htags
    cases htags
  refine ⟨⟨fun ⟨tags, htags⟩ => hok tags htags, fun hclash => ?_⟩, ?_, ?_⟩
  · obtain ⟨tags, htags, _⟩ := defineAll_ok hclash
    exact ⟨tags, htags⟩
  · intro tags name rule htags hget
    have hclash := hok tags htags
    obtain ⟨tags', htags', hlists⟩ := defineAll_ok hclash
    obtain rfl : tags = tags' := Except.ok.inj (htags.symm.trans htags')
    exact hlists.attributes_eq_none_iff hclash hget
  · intro before after x hl hbefore hx
    rw [hl, defineAll_clash hbefore hx]

/-- The star comes down to the second line of a tag. -/
def starredListing : Listing :=
  [(0, ⟨"a", .normal, " ", ["x"]⟩), (0, ⟨".", .normal, " ", ["*"]⟩), (1, ⟨"a", .normal, "", []⟩)]

theorem read_starredListing : read (sourceText (starredListing.lines "\t") true) = .error .wrongType :=
  (read_ok_iff_not_clashes (l := starredListing) (u := "\t") true (by decide) (by decide) (by decide)).2.2
    (starredListing.inherited.take 2) [] _ rfl (by decide) (by decide)

theorem read_list_after_star : read "<a> *\n<a> x\n" = .error .unknownAttribute := by rfl

end Grammar
end OutlineMarkup
