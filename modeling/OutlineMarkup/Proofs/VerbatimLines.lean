import OutlineMarkup.Proofs.Rendering

/-!
# Lines of verbatim blocks

Under the name of a declared kind of verbatim block a document may hold lines of any text. The module
says what single lines do: a declaration, the name that opens a block, a line inside it, and the line
that ends it and is then handled as if the block had been written before.
-/

namespace OutlineMarkup
open List Action Text Compile Markup Attributes Indentation Session
variable {t : Text} {c : Char}

open Bool (and_eq_true)

/-- A kind of verbatim block and the texts around a block of that kind. -/
structure Verbatim where
  name : Text
  opening : Text
  closing : Text
  deriving Repr, DecidableEq

namespace Verbatim

def written (v : Verbatim) : Text :=
  v.name ++ " = verbatim(\'" ++ v.opening ++ "\',\'" ++ v.closing ++ "\')"

def header (v : Verbatim) : Text := v.name ++ [':']

def form (v : Verbatim) : VerbatimForm := ⟨v.opening ++ ['\n'], v.closing ++ ['\n'], .lines⟩

/-- A text that may stand around a block. -/
def isAround (t : Text) : Bool :=
  !t.isEmpty && t.all fun c =>
    !List.contains ['\'', '"', ',', '(', ')', '[', ']', '\\', '=', '$', '\n'] c

def isDeclarable (v : Verbatim) : Bool :=
  v.name.isAlphanumeric && isAround v.opening && isAround v.closing

end Verbatim

/-- A line of a block whose name stands at a depth, without its line feed. -/
def isContent (u : Text) (k : Nat) (l : Text) : Bool :=
  (u.times (k + 1)).isPrefixOf l && l.any (!Text.isBlank ·) && l.trimRight.getLast? != some '\\' &&
    !l.has "\\$" && !l.hasChar '\n'

/-! ## Declarations -/

namespace Verbatim

theorem isAround_iff (t : Text) : isAround t ↔ t ≠ [] ∧
      ∀ c ∈ t, c ∉ ['\'', '"', ',', '(', ')', '[', ']', '\\', '=', '$', '\n'] := by
  simp [isAround]

theorem not_mem_around (h : isAround t)
    (hc : c ∈ ['\'', '"', ',', '(', ')', '[', ']', '\\', '=', '$', '\n']) : c ∉ t :=
  fun hm => ((isAround_iff t).mp h).2 c hm hc

variable {v : Verbatim}

theorem name_not_mem (h : v.isDeclarable) (hc : c.isAlphanum = false) : c ∉ v.name := by
  simp only [isDeclarable, and_eq_true] at h
  exact not_mem_of_all ((isAlphanumeric_iff _).mp h.1.1).2 hc

def quoted (t : Text) : Text := '\'' :: t ++ ['\'']

theorem unquoteName_quoted (hsingle : '\'' ∉ t) (hdouble : '"' ∉ t) :
    Attributes.unquoteName (quoted t) = quoted t := by
  have hquote : ∀ c ∈ t, (!isQuote c) := by
    intro c hc
    have hs : c ≠ '\'' := fun e => hsingle (e ▸ hc)
    have hd : c ≠ '"' := fun e => hdouble (e ▸ hc)
    simp [isQuote, hs, hd]
  have hname : hasQuotedName (quoted t) = false := by
    simp only [hasQuotedName, quoted, cons_append]
    rw [dropWhile_append_of_pos hquote]
    simp [isQuote, trimLeft]
  unfold unquoteName
  split
  · rename_i hnil
    exact hnil.symm
  · rw [if_neg (by rw [hname]; exact Bool.false_ne_true)]

theorem solid_quoted (t : Text) : Solid (quoted t) :=
  ⟨⟨'\'', rfl, rfl⟩, ⟨'\'', by rw [quoted, getLast?_concat], rfl⟩⟩

theorem whole_of_expand (h : ∀ c ∈ ['\'', '"', ',', '\n'], c ∉ t)
    (hexpand : Attributes.expand (quoted t) = .ok (quoted t)) : Attributes.Whole (quoted t) := by
  have hlast : (quoted t).getLast? = some '\'' := by rw [quoted, getLast?_concat]
  have hsign : ∀ c ∈ ['"', ',', '\n'], c ∉ quoted t := by
    intro c hc hm
    simp only [quoted, cons_append, mem_cons, mem_append, not_mem_nil, or_false] at hc hm
    rcases hm with rfl | hm | rfl
    · simp at hc
    · exact h c (by simp only [mem_cons]; tauto) hm
    · simp at hc
  refine ⟨solid_quoted t, hsign _ (by simp), hsign _ (by simp), ?_, hexpand,
    unquoteName_quoted (h _ (by simp)) (h _ (by simp))⟩
  have hdouble : (quoted t).count '"' = 0 := count_eq_zero.mpr (hsign _ (by simp))
  have hsingle : (quoted t).count '\'' = 2 := by
    have : t.count '\'' = 0 := count_eq_zero.mpr (h _ (by simp))
    simp [quoted, this]
  have hhead : (quoted t).head? = some '\'' := rfl
  simp [Open.after, hhead, hlast, hdouble, hsingle]

theorem whole_quoted (h : isAround t) : Whole (quoted t) := by
  refine whole_of_expand (fun c hc => not_mem_around h ?_) ?_
  · simp only [mem_cons, not_mem_nil, or_false] at hc ⊢
    tauto
  · have hsplit : (quoted t).splitAtChar '=' = [quoted t] := by
      apply pieces_of_forall_not
      intro c hc
      have hne : c ≠ '=' := by
        rintro rfl
        have hm : '=' ∈ t := by simpa [quoted] using hc
        exact not_mem_around h (by simp) hm
      simpa using hne
    have hcons : quoted t = '\'' :: (t ++ ['\'']) := rfl
    rw [expand, (solid_quoted t).trim_eq]
    rw [hcons] at hsplit ⊢
    simp only [hsplit]
    rfl

theorem written_eq (v : Verbatim) : v.written = (v.name ++ [' ']) ++ '=' :: ([' '] ++ ("verbatim" ++
      '(' :: (join [','] [quoted v.opening, quoted v.closing] ++ [')']))) := by
  simp [written, quoted, join]

variable (h : v.isDeclarable)
include h

theorem read_declared : Definition.read ([' '] ++ ("verbatim" ++
      '(' :: (join [','] [quoted v.opening, quoted v.closing] ++ [')']))) =
      .ok ⟨"verbatim", [quoted v.opening, quoted v.closing]⟩ := by
  simp only [isDeclarable, and_eq_true] at h
  refine read_blank_callText (b := []) (callName_of_isCallName rfl) (by simp) ?_
  intro p hp
  simp only [mem_cons, not_mem_nil, or_false] at hp
  rcases hp with rfl | rfl
  · exact whole_quoted h.1.2
  · exact whole_quoted h.2

theorem declaresVerbatim_written : declaresVerbatim v.written := by
  have hname : ∀ c ∈ v.name, (!isWordChar c) = false := by
    intro c hc
    simp only [isDeclarable, and_eq_true] at h
    simp [isWordChar, ((isAlphanumeric_iff _).mp h.1.1).2 c hc]
  have hword : ∀ c ∈ "verbatim".toList, (!isWordChar c) = false := by decide
  have hpieces : "verbatim".toList ∈ pieces (!isWordChar ·) v.written := by
    rw [written_eq, append_assoc, singleton_append, pieces_append_cons hname rfl]
    refine .tail _ ?_
    rw [← nil_append ('=' :: _), pieces_append_cons (by simp) rfl]
    refine .tail _ ?_
    rw [singleton_append, ← nil_append (' ' :: _), pieces_append_cons (by simp) rfl]
    refine .tail _ ?_
    rw [pieces_append_cons hword rfl]
    exact mem_cons_self
  rw [declaresVerbatim, any_eq_true]
  exact ⟨_, hpieces, rfl⟩

theorem declareVerbatim_run (s : Session) : (declareVerbatim v.written).runFrom s =
      (.ok (), { s with verbatims := s.verbatims.set v.name v.form }) := by
  have heq : '=' ∉ v.name ++ [' '] := by simp [name_not_mem h (c := '=') rfl]
  have hcut : v.written.cut? "=" = some (v.name ++ [' '], [' '] ++ ("verbatim" ++
      '(' :: (join [','] [quoted v.opening, quoted v.closing] ++ [')']))) := by
    rw [written_eq]
    exact cut?_append_cons heq
  have hsolid : Solid v.name := by
    simp only [isDeclarable, and_eq_true] at h
    exact (callName_of_isAlphanumeric h.1.1).solid
  have htrim : (v.name ++ [' ']).trim = v.name := by
    simpa using trim_append_solid (a := []) (b := [' ']) (by simp) (by simp [isBlank]) hsolid
  have hinner : ∀ t : Text, (quoted t).inner = t := by
    intro t
    simp [quoted, Text.inner]
  have hcommand : (("verbatim" : Text) == "code_block") = false := by decide
  have hline : (("verbatim" : Text) == "verbatim_line") = false := by decide
  simp only [declareVerbatim, hcut, runFrom_bind, runFrom_liftM,
    read_declared h, hcommand, hline, Bool.false_and, Bool.false_eq_true, if_false,
    surroundings, beq_self_eq_true, if_true, runFrom_pure, runFrom_modify, htrim, hinner]
  rfl

theorem solid_written : Solid v.written := by
  simp only [isDeclarable, and_eq_true] at h
  obtain ⟨c, hc, hb⟩ := (callName_of_isAlphanumeric h.1.1).solid.head
  obtain ⟨r, hr⟩ := head?_eq_some_iff.mp hc
  refine ⟨⟨c, by simp [written, hr], hb⟩, ⟨')', ?_, rfl⟩⟩
  have hlast : v.written = (v.name ++ " = verbatim('" ++ v.opening ++ "','" ++
      v.closing ++ ['\'']) ++ [')'] := by simp [written]
  rw [hlast, getLast?_concat]

theorem written_not_mem (hc : c ∈ ['[', '\\', '\n']) : c ∉ v.written := by
  have hname : c ∉ v.name := by
    apply name_not_mem h
    simp only [mem_cons, not_mem_nil, or_false] at hc
    rcases hc with rfl | rfl | rfl <;> rfl
  simp only [isDeclarable, and_eq_true] at h
  have hopening : c ∉ v.opening := by
    apply not_mem_around h.1.2
    simp only [mem_cons, not_mem_nil, or_false] at hc ⊢
    tauto
  have hclosing : c ∉ v.closing := by
    apply not_mem_around h.2
    simp only [mem_cons, not_mem_nil, or_false] at hc ⊢
    tauto
  have hsigns : c ∉ " = verbatim('".toList ∧ c ∉ "','".toList ∧ c ∉ "')".toList := by
    simp only [mem_cons, not_mem_nil, or_false] at hc
    rcases hc with rfl | rfl | rfl <;> decide
  intro hm
  simp only [written, mem_append] at hm
  tauto
end Verbatim

namespace Table
variable {α : Type} {t : Table α} {name : Text} {a : α}

theorem get?_eq_none_of_not_mem (h : name ∉ t.names) : t.get? name = none := by
  induction t with
  | nil => rfl
  | cons x t ih =>
    obtain ⟨k, b⟩ := x
    simp only [names, map_cons, mem_cons, not_or] at h
    rw [get?, if_neg (Ne.symm h.1)]
    exact ih h.2

theorem get?_of_mem (hn : t.names.Nodup) (h : (name, a) ∈ t) : t.get? name = some a := by
  induction t with
  | nil => cases h
  | cons x t ih =>
    obtain ⟨k, b⟩ := x
    simp only [names, map_cons, nodup_cons] at hn
    rw [get?]
    rcases mem_cons.mp h with heq | h
    · cases heq
      rw [if_pos rfl]
    · have hne : k ≠ name := by
        rintro rfl
        exact hn.1 (mem_map.mpr ⟨_, h, rfl⟩)
      rw [if_neg hne]
      exact ih hn.2 h

theorem set_of_not_mem (h : name ∉ t.names) : t.set name a = t ++ [(name, a)] := by
  induction t with
  | nil => rfl
  | cons x t ih =>
    obtain ⟨k, b⟩ := x
    simp only [names, map_cons, mem_cons, not_or] at h
    rw [set, if_neg (Ne.symm h.1), ih h.2]
    rfl

end Table

/-! ## Sessions with kinds of blocks -/

def kinds (declared : List Verbatim) : Table VerbatimForm := declared.map fun v => (v.name, v.form)

theorem names_kinds (declared : List Verbatim) : (kinds declared).names = declared.map Verbatim.name := by
  simp [kinds, Table.names]

namespace Session

structure Outside (tags : TagTable) (u : Text) (declared : List Verbatim) (s : Session) : Prop where
  idle : ({ s with verbatims := [] } : Session).Idle tags u
  verbatims : s.verbatims = kinds declared
  methods : s.methods = []
  text : s.blockText = []

def inside (v : Verbatim) (k : Nat) (text : Text) (s : Session) : Session :=
  { s with
    block := some v.name
    blockLevel := k
    blockText := text
    globalMarks := []
    methodMarks := []
    elements := none :: s.elements }

def after (k : Nat) (s : Session) : Session :=
  { s with blockLevel := k, blockText := [], block := none, globalMarks := [], methodMarks := [] }

variable {tags : TagTable} {u : Text} {declared : List Verbatim} {s : Session} {k : Nat} {p : Page}

section Outside
variable (h : s.Outside tags u declared)
include h

theorem Outside.after : (s.after k).Outside tags u declared :=
  ⟨⟨h.idle.table, rfl, rfl, h.idle.loops, h.idle.defining, h.idle.unit, h.idle.regular, h.idle.known⟩,
    h.verbatims, h.methods, rfl⟩

theorem Outside.learn_withPage (hr : p.Regular) (hp : p.Known s.tags) (hroom : p.room = k + 1) :
    ((s.learn u k).withPage p).Outside tags u declared :=
  ⟨h.idle.learn_withPage (p := p) hr hp hroom, h.verbatims, h.methods, h.text⟩

theorem Outside.loops_isEmpty : s.loops.isEmpty := by
  rw [show s.loops = [] from h.idle.loops]
  rfl

theorem Outside.isDefining : s.isDefining = false := by
  rw [Session.isDefining, show s.defining = none from h.idle.defining]
  rfl

theorem Outside.has_eq_false {name : Text} (hn : name ∉ declared.map Verbatim.name) :
    s.verbatims.has name = false := by
  rw [← names_kinds, ← h.verbatims] at hn
  rw [Table.has, Table.get?_eq_none_of_not_mem hn]
  rfl

theorem Outside.get? (hn : (declared.map Verbatim.name).Nodup) {v : Verbatim} (hv : v ∈ declared) :
    s.verbatims.get? v.name = some v.form := by
  rw [← names_kinds, ← h.verbatims] at hn
  refine Table.get?_of_mem hn ?_
  rw [h.verbatims]
  exact mem_map.mpr ⟨v, hv, rfl⟩

end Outside

end Session

/-! ## Names of lines -/

theorem trimOf_colon (h : ':' ∉ t) (colon : Bool) : (t ++ colonText colon).trimOf (· == ':') = t := by
  have hcolon : ∀ c ∈ t, (c == ':') = false := by
    intro c hc
    rw [beq_eq_false_iff_ne]
    rintro rfl
    exact h hc
  have hkept : ∀ {s : Text}, (∀ c ∈ s, (c == ':') = false) → s.dropWhile (· == ':') = s := by
    intro s hs
    cases s with
    | nil => rfl
    | cons c s => rw [dropWhile_cons, hs c mem_cons_self]; rfl
  have hright : dropRightWhile t (· == ':') = t := by
    rw [dropRightWhile, hkept fun c hc => hcolon c (mem_reverse.mp hc), reverse_reverse]
  cases colon with
  | false => rw [colonText, if_neg (by simp), append_nil, trimOf, hkept hcolon, hright]
  | true =>
    rw [colonText, if_pos rfl, trimOf]
    cases t with
    | nil => rfl
    | cons c t =>
      rw [cons_append, dropWhile_cons, hcolon c mem_cons_self]
      rw [dropRightWhile] at hright ⊢
      simpa using hright

theorem blockName_name {name : Text} (hn : CallName name) (colon : Bool) :
    blockName (name ++ colonText colon) = name := by
  have hparen : '(' ∉ name ++ colonText colon := by
    cases colon <;> simp [colonText, hn.not_mem (c := '(') (by decide)]
  have hbefore : (name ++ colonText colon).before "(" = name ++ colonText colon :=
    before_eq_self (has_eq_false_of_not_mem (c := '(') (by simp) hparen)
  rw [blockName, hbefore, trimOf_colon (hn.not_mem (by decide))]

theorem Markup.blockName_written {m : Markup Text} (hm : m.isPlain) {v : Verbatim}
    (hv : v.isDeclarable) (hne : m.name? ≠ some v.name) : blockName m.written ≠ v.name := by
  cases m with
  | text t =>
    have ht : ∀ c ∈ t, isPlainChar c := all_eq_true.mp hm
    have hparen : '(' ∉ (text t).written := by
      simp [written, not_mem_of_all (d := '(') ht (by decide)]
    have hcolon : ':' ∉ (text t).written := by
      simp [written, not_mem_of_all (d := ':') ht (by decide)]
    have hname : blockName (text t).written = (text t).written := by
      rw [blockName, before_eq_self (has_eq_false_of_not_mem (c := '(') (by simp) hparen)]
      simpa [colonText] using trimOf_colon hcolon false
    rw [hname]
    intro heq
    refine Verbatim.name_not_mem hv (c := '"') rfl ?_
    rw [← heq, written]
    exact mem_cons_self
  | element name attributes colon =>
    have hn := callName_of_isWritable (isWritable_of_isPlain hm)
    have hname : Compile.blockName (element name attributes colon).written = name := by
      cases attributes with
      | none => exact blockName_name hn colon
      | some attributes =>
        have hbefore : (element name (some attributes) colon).written.before "(" = name := by
          rw [written, append_assoc]
          exact before_append_cons (hn.not_mem (by decide))
        rw [blockName, hbefore]
        simpa [colonText] using trimOf_colon (hn.not_mem (by decide)) false
    rw [hname]
    intro heq
    exact hne (congrArg some heq)

namespace Verbatim
variable {v : Verbatim}

theorem callName (h : v.isDeclarable) : CallName v.name := by
  simp only [isDeclarable, and_eq_true] at h
  exact callName_of_isAlphanumeric h.1.1

theorem header_eq (v : Verbatim) : v.header = v.name ++ colonText true := rfl

theorem solid_header (h : v.isDeclarable) : Solid v.header := by
  rw [header_eq]
  exact solid_name (callName h) true

def blockText (u : Text) (k : Nat) (v : Verbatim) (text : Text) : Text :=
  v.opening ++ '\n' :: (text ++ (u.times k ++ v.closing))

end Verbatim

def Session.afterBlock (v : Verbatim) (u : Text) (k : Nat) (text : Text) (s : Session) : Session :=
  (s.withPage (s.page.write u k (.text (v.blockText u k text)))).after k

/-! ## Lines of a block -/

namespace Compile
variable {handle : Handler} {tags : TagTable} {u l text : Text} {declared : List Verbatim}
  {v : Verbatim} {s : Session} {k : Nat} {p : Page} {e : Text}

theorem line_opens (handle : Handler) (hu : isUnit u) (hn : (declared.map Verbatim.name).Nodup)
    (hv : v ∈ declared) (hd : v.isDeclarable) (hs : s.Outside tags u declared)
    (he : LineEnd e) (hr : s.Reads u k) (hp : s.page.enter tags u k none = .ok p) :
    (line handle (sourceLine u k v.header e)).runFrom s =
      (.ok (), ((s.learn u k).withPage { p with lastElement := none }).inside v k []) := by
  have hsolid := Verbatim.solid_header hd
  have htrim := hsolid.trim_sourceLine (k := k) hu he
  have hname : blockName v.header = v.name := blockName_name (Verbatim.callName hd) true
  have hread : Definition.read v.header = .ok ⟨v.name, []⟩ := read_name (Verbatim.callName hd) true
  have hnamed : (s.learn u k).verbatims.has v.name := by
    change (s.verbatims.get? v.name).isSome
    rw [hs.get? hn hv]
    rfl
  have hblock : (s.learn u k).block = none := hs.idle.block
  have hloops : (s.learn u k).loops.isEmpty := hs.loops_isEmpty
  have hdefining : (s.learn u k).isDefining = false := hs.isDefining
  -- The page is entered while the block is already noted.
  obtain ⟨t, ht⟩ : ∃ t : Session, t = { s.learn u k with
      block := some v.name, globalMarks := [], methodMarks := [], blockLevel := k } := ⟨_, rfl⟩
  have hknows : t.KnowsUnit u k := by
    rw [ht]
    exact hs.idle.knowsUnit
  have henter := enter_run (s := t) (by rw [ht]; exact hs.idle.defining) hknows (indents_of_isUnit hu)
    (by rw [ht]; exact hs.idle.known) none
  have hpage : t.page.enter t.tags u k none = .ok p := by
    rw [ht]
    change s.page.enter s.tags u k none = .ok p
    rw [show s.tags = tags from hs.idle.table]
    exact hp
  rw [hpage] at henter
  have hrun : (enter k (some none)).runFrom t = (.ok (), t.withPage p) := henter
  have hopen : (openBlock (sourceLine u k v.header e) k).runFrom (s.learn u k) =
      (.ok (), ((s.learn u k).withPage { p with lastElement := none }).inside v k s.blockText) := by
    have htd : t.isDefining = false := by rw [ht]; exact hdefining
    rw [ht] at htd hrun
    simp only [openBlock, htrim, runFrom_bind, runFrom_liftM, hread,
      runFrom_modify, markVariables, runFrom_pure, runFrom_get, htd, Bool.not_false, if_true, hrun, push]
    rfl
  rw [hs.text] at hopen
  simp only [line, runFrom_bind, depthOf_sourceLine hsolid hu hr,
    blanks_run learn_unit, runFrom_get, htrim, hname, hnamed, hblock, hloops,
    Option.isSome_none, Bool.or_true, Bool.not_true, Bool.false_and, if_true, Bool.false_eq_true,
    if_false, verbatimLine, depthOf_learnt hsolid hu hr, hopen, runFrom_pure, Bool.false_or]
  have hdone : (((s.learn u k).withPage { p with lastElement := none }).inside v k []).isDefining =
      false := hdefining
  rw [hdone]
  rfl

theorem isContent_iff : isContent u k l ↔
    u.times (k + 1) <+: l ∧ (∃ c ∈ l, isBlank c = false) ∧ l.trimRight.getLast? ≠ some '\\' ∧
      l.has "\\$" = false ∧ '\n' ∉ l := by
  simp [isContent, hasChar_eq_false_iff, and_assoc]

theorem lt_leading (hu : isUnit u) (hl : isContent u k l) : k < (leading l).length / u.length := by
  obtain ⟨⟨r, hr⟩, _⟩ := isContent_iff.mp hl
  have hstart : u.times (k + 1) <+: leading l := by
    rw [← hr, leading, takeWhile_append_of_pos (isBlank_of_mem_times hu)]
    exact prefix_append _ _
  have hlength := hstart.length_le
  rw [length_times] at hlength
  exact (Nat.le_div_iff_mul_le (length_pos_of_ne_nil ((isUnit_iff u).mp hu).1)).mpr hlength

theorem leading_ne_nil (hu : isUnit u) (hl : isContent u k l) : leading l ≠ [] := by
  have hdeeper := lt_leading hu hl
  intro hnil
  rw [hnil, length_nil, Nat.zero_div] at hdeeper
  omega

theorem depthOf_content (hu : isUnit u) (hl : isContent u k l) (hs : s.indentation.unit = some u ∨
      s.indentation.unit = none ∧ leading l = u) :
    (depthOf (l ++ ['\n'])).runFrom s = (.ok ((leading l).length / u.length), s.learn u 1) := by
  obtain ⟨⟨r, hr⟩, ⟨c, hc, hblank⟩, _⟩ := isContent_iff.mp hl
  obtain ⟨hne, hsigns⟩ := (isUnit_iff u).mp hu
  obtain ⟨d, w, hd⟩ := exists_cons_of_ne_nil hne
  have hsign : (d == '\t' || d == ' ') := by
    rcases hsigns d (by rw [hd]; exact mem_cons_self) with rfl | rfl <;> rfl
  have hline : l ++ ['\n'] = d :: (w ++ (times u k ++ r ++ ['\n'])) := by
    rw [← hr, times_succ, hd]
    simp
  have hlead : leading (l ++ ['\n']) = leading l := by
    unfold leading
    rw [takeWhile_append, if_neg]
    intro hlength
    have hinit : l.takeWhile isBlank <+: l := takeWhile_prefix _
    have hall := takeWhile_eq_self_iff.mp (hinit.eq_of_length hlength)
    rw [hall c hc] at hblank
    exact Bool.noConfusion hblank
  have hdepth : s.indentation.depth (l ++ ['\n']) =
      .ok ((leading l).length / u.length, (s.learn u 1).indentation) := by
    have hlearn : (s.learn u 1).indentation = { s.indentation with unit := some u } := rfl
    rw [hlearn]
    rcases hs with hunit | ⟨hunit, hleading⟩
    · rw [← hlead, hline]
      simp only [depth, hsign, if_true, hunit]
      rw [← hunit]
    · have hone : (leading l).length / u.length = 1 := by
        rw [hleading]
        exact Nat.div_self (length_pos_of_ne_nil hne)
      rw [hone, ← hleading, ← hlead, hline]
      simp [depth, hsign, hunit]
  rw [depthOf, runFrom_bind_ok (runFrom_get s), hdepth]
  rfl

theorem line_content (handle : Handler) (hu : isUnit u)
    (hn : (declared.map Verbatim.name).Nodup) (hv : v ∈ declared)
    (hs : s.Outside tags u declared) (hl : isContent u k l) (hunit : s.indentation.unit = some u ∨
      s.indentation.unit = none ∧ leading l = u) : (line handle (l ++ ['\n'])).runFrom (s.inside v k text) =
      (.ok (), (s.learn u 1).inside v k (text ++ (l.drop (k + 1) ++ ['\n']))) := by
  have hdepth := depthOf_content (s := s.inside v k text) hu hl hunit
  obtain ⟨t, ht⟩ : ∃ t : Session, t = (s.inside v k text).learn u 1 := ⟨_, rfl⟩
  rw [← ht] at hdepth
  have hlearnt : t.indentation.unit = some u := by
    rw [ht]
    rfl
  have hagain := depthOf_content (s := t) hu hl (.inl hlearnt)
  rw [learn_of_unit hlearnt 1] at hagain
  have hblanks : (blanks ((leading l).length / u.length : Nat)).runFrom t =
      (.ok (u.times ((leading l).length / u.length)), t) := blanks_run (.inl hlearnt)
  have hdefining : t.isDefining = false := by
    rw [ht]
    exact hs.isDefining
  have hloops : t.loops.isEmpty := by
    rw [ht]
    exact hs.loops_isEmpty
  have hform : t.verbatims.get? v.name = some v.form := by
    rw [ht]
    exact hs.get? hn hv
  have hblock : t.block = some v.name := by rw [ht]; rfl
  have hlevel : t.blockLevel = k := by rw [ht]; rfl
  have hmarks : t.globalMarks = [] := by rw [ht]; rfl
  have htext : t.blockText = text := by rw [ht]; rfl
  have hdrop : (l ++ ['\n']).drop (k + 1) = l.drop (k + 1) ++ ['\n'] := by
    apply drop_append_of_le_length
    have hstart := (isContent_iff.mp hl).1.length_le
    rw [length_times] at hstart
    exact (Nat.le_mul_of_pos_right _ (length_pos_of_ne_nil ((isUnit_iff u).mp hu).1)).trans hstart
  obtain ⟨t', ht'⟩ : ∃ t' : Session, t' = { t with blockText := text ++ (l.drop (k + 1) ++ ['\n']) } :=
    ⟨_, rfl⟩
  have hadd : (addToBlock (l ++ ['\n'])).runFrom t = (.ok (), t') := by
    rw [ht']
    simp only [addToBlock, runFrom_bind, runFrom_get, hlevel, hmarks, htext, hdrop,
      Method.evaluateVerbatim, foldlM_nil, runFrom_set]
    rfl
  have hdeeper : (leading l).length / u.length > t.blockLevel := by
    rw [hlevel]
    exact lt_leading hu hl
  simp only [line, runFrom_bind, hdepth, hblanks, runFrom_get, hblock,
    Option.isSome_some, Bool.true_or, if_true, hloops, Bool.not_true, Bool.false_and,
    Bool.false_eq_true, if_false, verbatimLine, hagain, hform, hdeeper, hdefining, Bool.not_false,
    hadd, runFrom_pure, Bool.false_or]
  have hdone : t'.isDefining = false := by
    rw [ht']
    exact hdefining
  rw [hdone, ht', ht]
  rfl

/-! ## The end of a block -/

theorem unescapeDollars_block (hu : isUnit u) (hd : v.isDeclarable) (ht : text.has "\\$" = false) :
    unescapeDollars (u.times k ++ (v.blockText u k text ++ ['\n'])) =
      u.times k ++ (v.blockText u k text ++ ['\n']) := by
  simp only [Verbatim.isDeclarable, and_eq_true] at hd
  have hsign : ∀ c ∈ "\\$".toList, c ∉ u.times k ++ v.opening ++ ['\n'] ∧
      c ∉ u.times k ++ v.closing ++ ['\n'] := by
    intro c hc
    have hboth : ∀ d ∈ "\\$".toList,
        d ∈ ['\'', '"', ',', '(', ')', '[', ']', '\\', '=', '$', '\n'] ∧ isBlank d = false ∧
          d ≠ '\n' := by decide
    obtain ⟨haround, hblank⟩ := hboth c hc
    simp [not_mem_times hu hblank.1, Verbatim.not_mem_around hd.1.2 haround,
      Verbatim.not_mem_around hd.2 haround, hblank.2]
  have hshape : u.times k ++ (v.blockText u k text ++ ['\n']) =
      (u.times k ++ v.opening ++ ['\n']) ++ (text ++ (u.times k ++ v.closing ++ ['\n'])) := by
    simp [Verbatim.blockText]
  apply replace_eq_self
  rw [has_eq_false_iff] at ht ⊢
  intro hpart
  rw [hshape] at hpart
  have hrest := infix_of_infix_append_left (by decide) (fun c hc => (hsign c hc).1) hpart
  exact ht (infix_of_infix_append_right (by decide) (fun c hc => (hsign c hc).2) hrest)

theorem writeBlock_run (hu : isUnit u) (hd : v.isDeclarable)
    (ht : text.has "\\$" = false) (hunit : s.indentation.unit = some u ∨ k = 0)
    (hlast : s.lastElement = none) : (writeBlock v.name v.form).runFrom (s.inside v k text) =
      (.ok (), { s.afterBlock v u k text with block := some v.name }) := by
  have hclosing : (v.form.closing).isEmpty = false := by simp [Verbatim.form]
  have hwhole : u.times k ++ v.form.opening ++ text ++ u.times k ++ v.form.closing =
      u.times k ++ (v.blockText u k text ++ ['\n']) := by
    simp [Verbatim.form, Verbatim.blockText]
  have hprocess : processBlock v.name v.form text = .ok text := rfl
  obtain ⟨t, ht'⟩ : ∃ t : Session, t = s.inside v k text := ⟨_, rfl⟩
  have htext : t.blockText = text := by rw [ht']; rfl
  have hblanks : (blanks t.blockLevel).runFrom { t with blockText := text } =
      (.ok (u.times k), { t with blockText := text }) := by
    rw [ht']
    exact blanks_run (s := s.inside v k text) hunit
  rw [← ht']
  simp only [writeBlock, runFrom_bind, runFrom_get, htext, runFrom_liftM,
    hprocess, runFrom_set, hclosing, Bool.not_false, if_true, hblanks,
    runFrom_modify, write, hwhole, unescapeDollars_block hu hd ht]
  rw [ht']
  simp [closeLast, runFrom_bind, Session.inside, Session.afterBlock, Session.after, Session.withPage,
    Session.page, Page.write, opening, name?, hlast]

/-- What a session inside a block knows of the block. -/
structure Collected (tags : TagTable) (u : Text) (declared : List Verbatim) (v : Verbatim) (k : Nat)
    (text : Text) (s : Session) : Prop where
  outside : s.Outside tags u declared
  mem : v ∈ declared
  room : s.page.room = k + 1
  last : s.lastElement = none
  dollars : text.has "\\$" = false

namespace Collected
variable {text : Text} {j : Nat}

section Collected
variable (h : Collected tags u declared v k text s)
include h

theorem unit : s.indentation.unit = some u ∨ k = 0 := by
  rcases h.outside.idle.unit with hunit | ⟨_, hroom⟩
  · exact .inl hunit
  · have hk : s.page.room ≤ 1 := hroom
    rw [h.room] at hk
    exact .inr (by omega)

theorem ended : (s.afterBlock v u k text).Outside tags u declared := by
  refine Outside.after ⟨⟨h.outside.idle.table, h.outside.idle.block, rfl, h.outside.idle.loops,
    h.outside.idle.defining, h.outside.idle.unit, h.outside.idle.regular.write, ?_⟩,
    h.outside.verbatims, h.outside.methods, h.outside.text⟩
  exact ⟨by simp [withPage, page, Page.write, name?], h.outside.idle.known.entries⟩

theorem verbatimLine_ends (handle : Handler) (hu : isUnit u)
    (hn : (declared.map Verbatim.name).Nodup) (hd : v.isDeclarable) {x : Text} (hj : j ≤ k)
    (hx : (depthOf x).runFrom (s.inside v k text) = (.ok j, s.inside v k text)) :
    (verbatimLine handle x).runFrom (s.inside v k text) =
      (handle x >>= fun _ => pure true : Compile Bool).runFrom (s.afterBlock v u k text) := by
  have hform : (s.inside v k text).verbatims.get? v.name = some v.form := h.outside.get? hn h.mem
  have hblock : (s.inside v k text).block = some v.name := rfl
  have hshallow : ¬ j > (s.inside v k text).blockLevel := Nat.not_lt.mpr hj
  have hdefining : (s.inside v k text).isDefining = false := h.outside.isDefining
  have hwrite := writeBlock_run hu hd h.dollars h.unit h.last
  simp only [verbatimLine, runFrom_bind, hx, runFrom_get, hblock, hform, hshallow,
    if_false, hdefining, Bool.not_false, if_true, hwrite, runFrom_modify]
  rfl

theorem line_ends (hu : isUnit u) (hn : (declared.map Verbatim.name).Nodup) (hd : v.isDeclarable)
    {tag e : Text} (hj : j ≤ k) (ht : Solid tag) :
    (line handle (sourceLine u j tag e)).runFrom (s.inside v k text) =
      (handle (sourceLine u j tag e)).runFrom (s.afterBlock v u k text) := by
  have hunit : s.indentation.unit = some u ∨ j = 0 := by
    rcases h.unit with hunit | rfl
    · exact .inl hunit
    · exact .inr (Nat.le_zero.mp hj)
  have hlearn : (s.inside v k text).learn u j = s.inside v k text := by
    rcases hunit with hunit | rfl
    · exact learn_of_unit (s := s.inside v k text) hunit j
    · rfl
  have hreads : (s.inside v k text).Reads u j := by
    rcases hunit with hunit | rfl
    · exact .inl hunit
    · rcases h.outside.idle.unit with hunit | ⟨hunit, _⟩
      · exact .inl hunit
      · exact .inr ⟨hunit, Nat.zero_le 1⟩
  have hdepth : (depthOf (sourceLine u j tag e)).runFrom (s.inside v k text) =
      (.ok j, s.inside v k text) := by
    rw [depthOf_sourceLine ht hu hreads, hlearn]
  have hends := h.verbatimLine_ends handle hu hn hd hj hdepth
  have hblock : (s.inside v k text).block.isSome := rfl
  have hloops : (s.inside v k text).loops.isEmpty := h.outside.loops_isEmpty
  simp only [line, runFrom_bind, hdepth, blanks_run (s := s.inside v k text) hunit,
    runFrom_get, hblock, Bool.true_or, if_true, hloops, Bool.not_true, Bool.false_and,
    Bool.false_eq_true, if_false, hends]
  rcases (handle (sourceLine u j tag e)).runFrom (s.afterBlock v u k text) with ⟨_ | _, t⟩ <;> rfl

end Collected

end Collected

theorem line_endMark (handle : Handler) (hd : ∀ v ∈ declared, v.isDeclarable)
    (hs : s.Outside tags u declared) : (line handle endMark).runFrom s = (.ok (), s) := by
  have hdepth : (depthOf endMark).runFrom s = (.ok 0, s) := by
    have hindent : s.indentation.depth endMark = .ok (0, s.indentation) := rfl
    rw [depthOf, runFrom_bind_ok (runFrom_get s), hindent]
    rfl
  have hblanks : (blanks (0 : Nat)).runFrom s = (.ok [], s) := blanks_run (u := u) (.inr rfl)
  have hnamed : s.verbatims.has (blockName endMark.trim) = false := by
    apply hs.has_eq_false
    intro hm
    obtain ⟨v, hv, hname⟩ := mem_map.mp hm
    have hsign : '!' ∈ blockName endMark.trim := by decide
    rw [← hname] at hsign
    exact Verbatim.name_not_mem (hd v hv) rfl hsign
  have hblock : s.block.isSome = false := by
    rw [show s.block = none from hs.idle.block]
    rfl
  have hexpand : Shorthand.expand endMark = .ok endMark := shorthand_eq_self (by decide)
  have hdeclares : declaresVerbatim endMark.trim = false := by decide
  have hloop : isLoopStart endMark.trim = false := by decide
  have hmethod : isMethodStart endMark = false := by decide
  have hdeclaration : (declarationLine handle 0 endMark).runFrom s = (.ok none, s) := by
    obtain ⟨hsign, hcompound, himport, hengine, hpoint⟩ := endMark_signs
    simp only [declarationLine, hsign, hcompound, himport, hengine, hpoint, beq_self_eq_true,
      Bool.false_eq_true, if_false, if_true, runFrom_pure]
  have hempty : endMark.trim.isEmpty = false := by decide
  have hhash : (endMark.trim.head? == some '#') = false := by decide
  simp only [line, runFrom_bind, hdepth, hblanks, runFrom_get, hblock, hnamed,
    Bool.or_self, Bool.false_eq_true, if_false, hempty, hhash, runFrom_liftM, hexpand,
    plainLine, hdeclares, hs.isDefining, hs.loops_isEmpty, hloop, Bool.not_true, Bool.or_false, Bool.and_false,
    hmethod, hdeclaration, runFrom_pure]

theorem closeAll_outside (handle : Handler) (hs : s.Outside tags u declared) (hu : isUnit u) :
    (closeAll handle).runFrom s =
      (.ok (), s.withPage ((Page.pop tags u)^[s.page.elements.length] s.page)) := by
  have hclose := closeAll_closes (s := s) hs.idle.block hs.idle.defining
    (unrollAll_bound handle hs.idle.loops) (hs.idle.knowsUnit (k := 0)) hs.idle.known
    (indents_of_isUnit hu)
  rw [show s.tags = tags from hs.idle.table] at hclose
  exact hclose

theorem Collected.closeAll_ends {n : Nat} (h : Collected tags u declared v k text s)
    (hu : isUnit u) (hn : (declared.map Verbatim.name).Nodup) (hd : ∀ v ∈ declared, v.isDeclarable) :
    (closeAll (lineTo (n + 1))).runFrom (s.inside v k text) =
      (closeAll (lineTo (n + 1))).runFrom (s.afterBlock v u k text) := by
  have hdepth : (depthOf endMark).runFrom (s.inside v k text) = (.ok 0, s.inside v k text) := by
    have hindent : (s.inside v k text).indentation.depth endMark =
      .ok (0, (s.inside v k text).indentation) := rfl
    rw [depthOf, runFrom_bind_ok (runFrom_get _), hindent]
    rfl
  have hends := h.verbatimLine_ends (lineTo (n + 1)) hu hn (hd v h.mem) (Nat.zero_le k) hdepth
  have hmark : (lineTo (n + 1) endMark).runFrom (s.afterBlock v u k text) =
      (.ok (), s.afterBlock v u k text) := line_endMark (lineTo n) hd h.ended
  rw [runFrom_bind_ok hmark] at hends
  have hopen : (s.inside v k text).block.isSome := rfl
  have hclosed : (s.afterBlock v u k text).block.isSome = false := rfl
  simp [closeAll, runFrom_bind, hopen, runFrom_discard, hends, hclosed]

end Compile
end OutlineMarkup
