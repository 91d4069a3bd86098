import OutlineMarkup.Proofs.Bodies

/-!
# Lines that start loops

A line `for $v in [a, b]:` is entered like a call, and starts a loop with its own method.
-/

namespace OutlineMarkup
open List Text Action Reference Template Shorthand
variable {v w : Text} {items : List Text} {c : Char}

/-- The line `for $v in [a, b]:`. -/
def loopText (v : Text) (items : List Text) : Text :=
  "for $" ++ (v ++ (" in [" ++ (Text.join (',' :: [' ']) items ++ "]:")))

/-- A variable, and words that it stands for in turn. -/
@[mk_iff] structure IsLoop (v : Text) (items : List Text) : Prop where
  name : v.isName = true
  nonempty : items ≠ []
  words : ∀ w ∈ items, isBareWord w = true
  unreserved : isUnreserved (loopText v items) = true

instance (v : Text) (items : List Text) : Decidable (IsLoop v items) := decidable_of_iff' _ (isLoop_iff v items)

theorem isUnreserved_loopText (hv : isUnreserved v)
    (hitems : ∀ w ∈ items, isUnreserved w) : isUnreserved (loopText v items) := by
  have hjoin : isUnreserved (join (',' :: [' ']) items) := by
    induction items with
    | nil => rfl
    | cons w items ih =>
      have hw := hitems w mem_cons_self
      cases items with
      | nil => simpa [join] using hw
      | cons w' items =>
        have hrest := ih (forall_mem_cons.mp hitems).2
        have hcut : join (',' :: [' ']) (w :: w' :: items) =
            w ++ ',' :: ([] ++ ' ' :: join (',' :: [' ']) (w' :: items)) := by
          simp [join]
        rw [hcut]
        exact isUnreserved_append_cons rfl hw (isUnreserved_append_cons rfl rfl hrest)
  have hcut : loopText v items = "for " ++ '$' :: (v ++ ' ' :: ("in " ++ '[' ::
      (join (',' :: [' ']) items ++ ']' :: [':']))) := by
    simp [loopText]
  rw [hcut]
  exact isUnreserved_append_cons rfl (by decide) (isUnreserved_append_cons rfl hv
    (isUnreserved_append_cons rfl (by decide) (isUnreserved_append_cons rfl hjoin (by decide))))

/-- An item of a list: letters, digits, underscores and minus signs. -/
def isListed (w : Text) : Bool := !w.isEmpty && w.all fun c => Text.isWordChar c || c == '-'

variable {w : Text}

theorem isListed_of_isBareWord (h : isBareWord w) : isListed w := by
  simp only [isBareWord, isListed, Bool.and_eq_true, all_eq_true] at h ⊢
  exact ⟨h.1, fun c hc => by simp [h.2 c hc]⟩

theorem simple_of_isListed (h : isListed w) : Attributes.Simple w := by
  simp only [isListed, Bool.and_eq_true, Bool.not_eq_true', isEmpty_eq_false_iff, all_eq_true] at h
  exact Attributes.simple_of_class (fun c => isWordChar c || c == '-') h.1 h.2 (by decide)

/-- What a line that starts a loop has to be for its items to be read as they stand. -/
structure IsHeader (v : Text) (items : List Text) : Prop where
  name : v.isName = true
  nonempty : items ≠ []
  words : ∀ w ∈ items, isListed w = true
  undeclared : Compile.declaresVerbatim (loopText v items) = false

theorem IsLoop.header (h : IsLoop v items) : IsHeader v items :=
  ⟨h.name, h.nonempty, fun w hw => isListed_of_isBareWord (h.words w hw),
    declaresVerbatim_eq_false h.unreserved⟩

theorem IsLoop.isUnreserved_item (h : IsLoop v items) (hw : w ∈ items) : isUnreserved w := by
  have hjoin : join (',' :: [' ']) items <:+: loopText v items :=
    ⟨"for $" ++ v ++ " in [", "]:", by simp [loopText]⟩
  exact isUnreserved_of_isInfix h.unreserved ((infix_join hw).trans hjoin)

/-! ## Shorthand -/

theorem head?_of_number? {s r : Text} {d : Char} {n : Int} (hne : w ≠ []) (hc : c.isDigit = false)
    (h : number? (w ++ c :: s) = some (n, r)) (hd : r.head? = some d) : d ∈ w ∨ d = c := by
  have hdigits : r = (w ++ c :: s).dropWhile Char.isDigit ∨
      ∃ w', w = '-' :: w' ∧ r = (w' ++ c :: s).dropWhile Char.isDigit := by
    obtain ⟨e, w, rfl⟩ := exists_cons_of_ne_nil hne
    by_cases he : e = '-'
    · subst he
      simp only [number?, cons_append] at h
      split at h
      · cases h
      · exact .inr ⟨w, rfl, ((Prod.mk.inj (Option.some.inj h)).2).symm⟩
    · rw [number?] at h
      · simp only at h
        split at h
        · cases h
        · exact .inl ((Prod.mk.inj (Option.some.inj h)).2).symm
      · exact fun t heq => he (cons.inj heq).1
  rcases hdigits with rfl | ⟨w', rfl, rfl⟩
  · exact head?_dropWhile_append_cons hc _ hd
  · exact (head?_dropWhile_append_cons hc _ hd).imp_left (.tail _)

theorem shorthand_words {s : Text} (hw : isListed w) (hc : c.isDigit = false)
    (hcolon : c ≠ ':') : read? ('[' :: (w ++ c :: s)) = none := by
  rw [isListed, Bool.and_eq_true, all_eq_true] at hw
  have hne : w ≠ [] := by simpa using hw.1
  unfold read?
  simp only [Option.bind_eq_bind]
  cases hnumber : number? (w ++ c :: s) with
  | none => rfl
  | some x =>
    obtain ⟨n, r⟩ := x
    simp only [Option.bind_some]
    split
    · rcases head?_of_number? hne hc hnumber rfl with hm | h
      · exact absurd (hw.2 _ hm) (by decide)
      · exact absurd h.symm hcolon
    · rfl

/-! ## The text of the line -/

namespace IsHeader
variable {v : Text} {items : List Text}

theorem solid (v : Text) (items : List Text) : Solid (loopText v items) :=
  ⟨⟨'f', rfl, rfl⟩, ⟨':', by simp [loopText, getLast?_cons], rfl⟩⟩

variable {c : Char} (h : IsHeader v items)
include h

theorem not_mem_name (hc : isWordChar c = false) : c ∉ v := by
  obtain ⟨_, _, _, _, hname⟩ := isName_iff.mp h.name
  exact not_mem_of_all hname hc

theorem not_mem_join (hc : isWordChar c = false) (hminus : c ≠ '-') (hsep : c ∉ ',' :: [' ']) :
    c ∉ join (',' :: [' ']) items := by
  intro hm
  rcases mem_join hm with hm | ⟨w, hw, hm⟩
  · exact hsep hm
  · have hword := h.words w hw
    rw [isListed, Bool.and_eq_true, all_eq_true] at hword
    exact not_mem_of_all hword.2 (by simp [hc, hminus]) hm

theorem not_mem (hword : isWordChar c = false)
    (hsign : c ∉ "for $ in [, -]:".toList) : c ∉ loopText v items := by
  have hpart : ∀ part : Text, (∀ d ∈ part, d ∈ "for $ in [, -]:".toList) → c ∉ part :=
    fun part hsub hm => hsign (hsub c hm)
  simp only [loopText, mem_append, not_or]
  exact ⟨hpart _ (by decide), h.not_mem_name hword, hpart _ (by decide),
    h.not_mem_join hword (fun hc => hsign (hc ▸ by decide)) (hpart _ (by decide)), hpart _ (by decide)⟩

theorem join_items : ∃ w ∈ items, ∃ (c : Char) (s : Text),
    join (',' :: [' ']) items ++ "]:" = w ++ c :: s ∧ c.isDigit = false ∧ c ≠ ':' := by
  match items, h.nonempty with
  | [w], _ => exact ⟨w, mem_cons_self, ']', [':'], by simp [join], rfl, by decide⟩
  | w :: x :: items, _ =>
    refine ⟨w, mem_cons_self, ',', ' ' :: (join (',' :: [' ']) (x :: items) ++ "]:"), ?_, rfl, by decide⟩
    simp [join]

theorem expand_sourceLine {u e : Text} {k : Nat} (hu : isUnit u)
    (he : LineEnd e) : Shorthand.expand (sourceLine u k (loopText v items) e) =
      .ok (sourceLine u k (loopText v items) e) := by
  obtain ⟨w, hw, c, s, hjoin, hc, hcolon⟩ := h.join_items
  have hrest : '[' ∉ join (',' :: [' ']) items ++ "]:" ++ e := by
    simp [h.not_mem_join (c := '[') rfl (by decide) (by decide), he.not_mem (c := '[') (by decide)]
  have hcut : sourceLine u k (loopText v items) e = (u.times k ++ ("for $" ++ (v ++ " in "))) ++
        '[' :: (join (',' :: [' ']) items ++ "]:" ++ e) := by
    simp [sourceLine, loopText]
  have hbefore : '[' ∉ u.times k ++ ("for $" ++ (v ++ " in ")) := by
    simp [not_mem_times hu (c := '[') rfl, h.not_mem_name (c := '[') rfl]
  rw [hcut, Shorthand.expand]
  refine shorthand_append hbefore ?_
  have hread : Shorthand.read? ('[' :: (join (',' :: [' ']) items ++ "]:" ++ e)) = none := by
    rw [hjoin, append_assoc, cons_append]
    exact shorthand_words (h.words w hw) hc hcolon
  have hself := shorthand_eq_self hrest
  rw [Shorthand.expand] at hself
  rw [Shorthand.expandFrom, hread, hself]
  rfl

/-! ## Variable and items -/

theorem words_loopText : (loopText v items).words[1]? = some ('$' :: v) := by
  have hfor : ∀ c ∈ "for".toList, isBlank c = false := by decide
  have hvar : ∀ c ∈ '$' :: v, isBlank c = false := by
    obtain ⟨_, _, _, _, hname⟩ := isName_iff.mp h.name
    intro c hc
    rcases mem_cons.mp hc with rfl | hc
    · rfl
    · exact isBlank_eq_false_of_class (hname c hc) (by decide)
  have hcut : loopText v items = "for" ++ ' ' :: (('$' :: v) ++ ' ' ::
      ("in [" ++ (join (',' :: [' ']) items ++ "]:"))) := by
    simp [loopText]
  rw [Text.words, hcut, pieces_append_cons hfor rfl, pieces_append_cons hvar rfl]
  simp

theorem loopItems_eq : Compile.loopItems (loopText v items) = .ok items := by
  have hcut : loopText v items = ("for $" ++ (v ++ " in ")) ++
      '[' :: (join (',' :: [' ']) items ++ ']' :: [':']) := by
    simp [loopText]
  have hfirst : (loopText v items).cut? "[" = some ("for $" ++ (v ++ " in "),
      join (',' :: [' ']) items ++ ']' :: [':']) := by
    rw [hcut]
    exact cut?_append_cons (by simp [h.not_mem_name (c := '[') rfl])
  have hlast : (join (',' :: [' ']) items ++ ']' :: [':']).cutLast? "]" =
      some (join (',' :: [' ']) items, [':']) := cutLast?_append_cons (by decide)
  have hlist : Attributes.read ([] ++ '(' :: (join (',' :: [' ']) items ++ ')' :: [])) = .ok items :=
    Attributes.read_join (by simp) (by simp) (by simp) (by simp)
      fun w hw => simple_of_isListed (h.words w hw)
  have hread : Attributes.read ('(' :: join (',' :: [' ']) items ++ [')']) = .ok items := hlist
  have htrim : items.map trim = items := by
    conv_rhs => rw [← map_id items]
    exact map_congr_left fun w hw => (simple_of_isListed (h.words w hw)).solid.trim_eq
  rw [Compile.loopItems, hfirst]
  simp only [hlast, Option.map_some, Option.getD_some, hread]
  change Except.ok (items.map trim) = _
  rw [htrim]

theorem has_eq_false : (loopText v items).has "][" = false := by
  have hcut : loopText v items = ("for $" ++ (v ++ " in ")) ++
      '[' :: (join (',' :: [' ']) items ++ "]:") := by
    simp [loopText]
  have hbefore : ∀ c ∈ "][".toList, c ∉ "for $".toList ++ (v ++ " in ".toList) := by
    have hname : ∀ c ∈ "][".toList, c ∉ v := by
      simp [h.not_mem_name (c := ']') rfl, h.not_mem_name (c := '[') rfl]
    simpa using hname
  have hafter : '[' ∉ join (',' :: [' ']) items ++ "]:" := by
    simp [h.not_mem_join (c := '[') rfl (by decide) (by decide)]
  rw [hcut, has_eq_false_iff]
  intro hoccurs
  rcases infix_cons_iff.mp (infix_of_infix_append_left (by decide) hbefore hoccurs) with hp | hi
  · exact absurd (cons_prefix_cons.mp hp).1 (by decide)
  · exact hafter (hi.subset (by decide))

theorem resolve_run (s : Session) :
    (Compile.resolve (loopText v items) ['$' :: v]).runFrom s = (.ok (loopText v items), s) := by
  let template : Template := "for ".toList.map .char ++ (.ref v ::
    (" in [" ++ (join (',' :: [' ']) items ++ "]:")).map .char)
  have hsource : loopText v items = template.source := by
    change _ = source ("for ".toList.map .char ++ ([.ref v] ++
      (" in [" ++ (join (',' :: [' ']) items ++ "]:")).map .char))
    rw [source_append, source_append, source_chars, source_chars]
    simp [loopText, source, Slot.source]
  have hrest : ∀ c : Char, isWordChar c = false → c ∉ " in [, -]:".toList →
      c ∉ " in [" ++ (join (',' :: [' ']) items ++ "]:") := by
    intro c hword hsign
    have hpart : ∀ part : Text, (∀ d ∈ part, d ∈ " in [, -]:".toList) → c ∉ part :=
      fun part hsub hm => hsign (hsub c hm)
    simp only [mem_append, not_or]
    exact ⟨hpart _ (by decide),
      h.not_mem_join hword (fun hc => hsign (hc ▸ by decide)) (hpart _ (by decide)), hpart _ (by decide)⟩
  have hsound : Sound [v] template := by
    have href : Sound [v] [.ref v] := ⟨rfl, by simp, by simp⟩
    exact .chars_append (by decide) (by decide)
      (href.append (.of_chars (hrest _ rfl (by decide)) (hrest _ rfl (by decide))) rfl)
  have hclean := hsound.clean (by simpa using h.name)
  have hnames : template.names = [v] := by
    change names ("for ".toList.map .char ++ ([.ref v] ++
      (" in [" ++ (join (',' :: [' ']) items ++ "]:")).map .char)) = [v]
    rw [names_append, names_append, names_chars, names_chars]
    rfl
  have hall : Reference.all (loopText v items) = ['$' :: v] := by
    rw [hsource, hclean.all_source, hnames]
    rfl
  have href : Reference.resolve s.globals (loopText v items) ['$' :: v] = .ok (loopText v items) := by
    have herase : Reference.withoutIgnored ['$' :: v] ['$' :: v] = [] := by
      simp [Reference.withoutIgnored]
    refine Reference.resolve_of_replaceEach ?_ (Compile.hasExpressionMark_eq_false (h.not_mem rfl (by decide)))
    rw [hall, herase]
    rfl
  have hindex := Compile.arrayIndex_eq_self h.has_eq_false
  simp [Compile.resolve, runFrom_bind, href, hindex]

end IsHeader

/-! ## Names of loops -/

namespace Compile

theorem loopName_injective {i j : Nat} (h : loopName i = loopName j) : i = j := by
  have hdigits : ofNat i = ofNat j := append_cancel_left h
  have hread := congrArg (Nat.ofDigitChars 10 · 0) hdigits
  simpa only [ofNat, Nat.ofDigitChars_ten_toDigits] using hread

theorem mem_loopName {n : Nat} (h : c ∈ loopName n) : c ∈ "rapydml_loop_def_".toList ∨ c.isDigit :=
  (mem_append.mp h).imp_right (Nat.isDigit_of_mem_toDigits (by decide) (by decide))

theorem isCallName_loopName (n : Nat) : isCallName (loopName n) := by
  have hletters : ∀ c ∈ "rapydml_loop_def_".toList, isWordChar c := by decide
  have hall : ∀ c ∈ loopName n, isWordChar c := by
    intro c hc
    rcases mem_loopName hc with hc | hc
    · exact hletters c hc
    · simp [isWordChar, Char.isAlphanum, hc]
  have hcons : loopName n = 'r' :: (loopName n).tail := rfl
  rw [hcons] at hall ⊢
  rw [isCallName, Bool.and_eq_true, all_eq_true]
  exact ⟨rfl, (forall_mem_cons.mp hall).2⟩

theorem isAlphanumeric_loopName (n : Nat) : (loopName n).isAlphanumeric = false := by
  have hmem : '_' ∈ loopName n := mem_append_left _ (by decide)
  generalize loopName n = name at hmem ⊢
  rw [← Bool.not_eq_true, isAlphanumeric_iff]
  intro h
  have hclass := h.2 _ hmem
  exact absurd hclass (by decide)

theorem isUnreserved_loopName (n : Nat) : isUnreserved (loopName n) := by
  have hpart : ∀ (part : Text) (c : Char), c ∈ part → c.isDigit = false →
      c ∉ "rapydml_loop_def_".toList → (loopName n).has part = false := by
    intro part c hc hdigit hname
    rw [has_eq_false_iff]
    intro hoccurs
    rcases mem_loopName (hoccurs.subset hc) with hm | hm
    · exact hname hm
    · rw [hdigit] at hm
      exact Bool.noConfusion hm
  simp only [isUnreserved, Bool.and_eq_true, Bool.not_eq_true']
  exact ⟨⟨hpart _ 'v' (by decide) rfl (by decide), hpart _ 'c' (by decide) rfl (by decide)⟩,
    hpart _ 'T' (by decide) rfl (by decide)⟩

theorem isPlain_loopCall (n : Nat) (hw : isBareWord w) :
    (Item.call (loopName n) (some [w]) false).isPlain := by
  simp [Item.isPlain, isCallName_loopName n, hw]

theorem isUnreserved_loopCall (n : Nat) (hw : isUnreserved w) :
    isUnreserved (Item.call (loopName n) (some [w]) false).written := by
  have hwritten : (Item.call (loopName n) (some [w]) false).written =
      loopName n ++ '(' :: (w ++ ')' :: []) := by
    simp [Item.written, callText, join, Markup.colonText]
  rw [hwritten]
  exact isUnreserved_append_cons rfl (isUnreserved_loopName n) (isUnreserved_append_cons rfl hw rfl)

end Compile

/-! ## Starting a loop -/

namespace Session

def withLevel (s : Session) (level : Int) : Session :=
  { s with indentation := { s.indentation with level } }

def withMethod (s : Session) (name : Text) (m : Method) : Session :=
  { s with methods := s.methods.set name m }

def popLoop (s : Session) (level : Int) (rest : List Loop) : Session :=
  { s.withLevel level with loops := rest }

def withLoop (s : Session) (v : Text) (level : Nat) (items : List Text) : Session :=
  { s with
    loops := ⟨Compile.loopName s.loopCount, level, items⟩ :: s.loops
    methods := s.methods.set (Compile.loopName s.loopCount)
      { name := Compile.loopName s.loopCount, parameters := ['$' :: v], ownVariables := false,
        serial := s.serials }
    serials := s.serials + 1
    loopCount := s.loopCount + 1 }

end Session

namespace Compile
variable {handle : Handler} {tags : TagTable} {u e v tag name : Text} {items : List Text}
  {k level : Nat} {s : Session} {rest : List Loop}

theorem startLoop_run (h : IsHeader v items) (hfresh : s.globals.get? ('$' :: v) = none) {p : Page}
    (henter : (enter k (some none)).runFrom s = (.ok (), s.withPage p)) :
    (startLoop (loopText v items) k).runFrom s = (.ok (), (s.withPage p).withLoop v k items) := by
  have hhas : (s.withPage p).globals.has ('$' :: v) = false := by
    have hnone : (s.withPage p).globals.get? ('$' :: v) = none := hfresh
    rw [Table.has, hnone]
    rfl
  simp only [startLoop, runFrom_bind, henter, h.words_loopText, Option.getD_some,
    runFrom_get, hhas, Bool.false_eq_true, if_false, h.resolve_run, h.loopItems_eq,
    runFrom_liftM, runFrom_modify, defineMethod]
  rfl

theorem line_startLoop (handle : Handler) (h : IsHeader v items) (hu : isUnit u) (he : LineEnd e)
    (hb : s.block = none) (hn : s.verbatims.has (blockName (loopText v items)) = false) (hd : s.defining = none)
    (hreads : s.Reads u k) : (line handle (sourceLine u k (loopText v items) e)).runFrom s =
      (startLoop (loopText v items) k).runFrom (s.learn u k) := by
  have hsolid := IsHeader.solid v items
  have htrim := hsolid.trim_sourceLine (k := k) hu he
  have hdepth : (depthOf (sourceLine u k (loopText v items) e)).runFrom (s.learn u k) =
      (.ok k, s.learn u k) := depthOf_learnt hsolid hu hreads
  have hdefining : (s.learn u k).isDefining = false := by simp [Session.isDefining, Session.learn, hd]
  have hstart : isLoopStart (loopText v items) := rfl
  rw [line_unnamed hu hreads hb hn hsolid (by simp [loopText]) he (h.expand_sourceLine hu he)]
  simp [plainLine, runFrom_bind, htrim, h.undeclared, hdefining, hstart, loopLine, hdepth]

theorem line_loop (handle : Handler) (h : IsHeader v items) (hu : isUnit u)
    (he : LineEnd e) (hi : ({ s with loops := [] } : Session).Idle tags u) (hk : k ≤ s.page.room)
    (hfresh : s.globals.get? ('$' :: v) = none) :
    match s.page.enter tags u k none with
    | .ok p => (line handle (sourceLine u k (loopText v items) e)).runFrom s =
        (.ok (), ((s.learn u k).withPage p).withLoop v k items)
    | .error f => ((line handle (sourceLine u k (loopText v items) e)).runFrom s).1 = .error f := by
  have hverbatims : s.verbatims = [] := hi.verbatims
  have hrun := line_startLoop (s := s) handle h hu he hi.block (by rw [hverbatims]; rfl) hi.defining (hi.reads hk)
  have hknows : (s.learn u k).KnowsUnit u k := hi.knowsUnit
  have henter := enter_run (s := s.learn u k) hi.defining hknows (indents_of_isUnit hu) hi.known none
  have htags : (s.learn u k).tags = tags := hi.table
  rw [htags, Session.page_learn] at henter
  rw [hrun]
  cases hp : s.page.enter tags u k none with
  | error f =>
    rw [hp] at henter
    exact runFrom_bind_fst_error henter
  | ok p =>
    rw [hp] at henter
    exact startLoop_run (s := s.learn u k) h hfresh henter

/-! ## Lines while loops are open -/

theorem line_open (ht : Solid tag) (hh : tag.head? ≠ some '#')
    (hx : Shorthand.expand (sourceLine u k tag e) = .ok (sourceLine u k tag e))
    (hv : declaresVerbatim tag = false) (hu : isUnit u) (he : LineEnd e) (hb : s.block = none)
    (hn : s.verbatims.has (blockName tag) = false) (hd : s.defining = none) (hreads : s.Reads u k)
    (hopen : s.loops ≠ []) : (line handle (sourceLine u k tag e)).runFrom s =
      (loopLine handle (sourceLine u k tag e)).runFrom (s.learn u k) := by
  have hdefining : (s.learn u k).isDefining = false := by simp [Session.isDefining, Session.learn, hd]
  have hloops : (s.learn u k).loops.isEmpty = false := isEmpty_eq_false_iff.mpr hopen
  have htrim := ht.trim_sourceLine (k := k) hu he
  rw [line_unnamed hu hreads hb hn ht hh he hx]
  simp only [plainLine, runFrom_bind, runFrom_get, htrim, hv, hdefining, hloops,
    Bool.not_false, Bool.true_or, Bool.and_self, Bool.false_eq_true, if_false, if_true]

variable {m : Method}

theorem updateMethod_run (hm : s.methods.get? name = some m)
    (f : Method → Method) : (updateMethod name f).runFrom s = (.ok (), s.withMethod name (f m)) := by
  simp only [updateMethod, runFrom_bind, runFrom_get, hm, runFrom_set]
  rfl

theorem drop_sourceLine (hk : level < k) :
    (sourceLine u k tag e).drop (u.times (level + 1)).length = sourceLine u (k - level - 1) tag e := by
  have hsum : k = level + 1 + (k - level - 1) := by omega
  have hcut : sourceLine u k tag e = u.times (level + 1) ++ sourceLine u (k - level - 1) tag e := by
    rw [sourceLine, sourceLine, ← append_assoc (u.times (level + 1)), ← times_add, ← hsum]
  rw [hcut, drop_left]

theorem loopLine_adds (handle : Handler) (ht : Solid tag) (hstart : isLoopStart tag = false)
    (hu : isUnit u) (he : LineEnd e) (hdepth : (depthOf (sourceLine u k tag e)).runFrom s = (.ok k, s))
    (hunit : s.indentation.unit = some u)
    (hloops : s.loops = ⟨name, level, items⟩ :: rest) (hm : s.methods.get? name = some m) (hk : level < k) :
    (loopLine handle (sourceLine u k tag e)).runFrom s = (.ok (), (s.withLevel k).withMethod name
        (m.addLine (sourceLine u (k - level - 1) tag e) [])) := by
  have hdeep : ¬ ((k : Int) - (level : Int) < 1) := by omega
  have hset : (setLevel k).runFrom s = (.ok (), s.withLevel k) := rfl
  have hblanks : (blanks ((level : Int) + 1)).runFrom (s.withLevel k) =
      (.ok (u.times (level + 1)), s.withLevel k) := by
    have hknown : (s.withLevel k).indentation.unit = some u ∨ level + 1 = 0 := .inl hunit
    exact blanks_run hknown
  have hm' : (s.withLevel k).methods.get? name = some m := hm
  have htrim := ht.trim_sourceLine (k := k) hu he
  simp only [loopLine, runFrom_bind, runFrom_get, hdepth, htrim, hstart, hloops, hdeep, hset,
    hblanks, updateMethod_run hm', drop_sourceLine hk, Bool.false_eq_true, if_false]

def loopCall (handle : Text → Compile Unit) (loop : Loop) (item : Text) : Compile Unit := do
  let call := (← blanks loop.level) ++ loop.name ++ '(' :: item ++ [')']
  match (← get).defining with
  | some m => updateMethod m (·.addLine call [])
  | none => handle call

theorem sourceLine_loopCall (u name w : Text) (k : Nat) : u.times k ++ name ++ '(' :: w ++ [')'] =
      sourceLine u k (Item.call name (some [w]) false).written [] := by
  simp [sourceLine, Item.written, callText, join, Markup.colonText]

theorem loopCall_run (hdefining : s.defining = none) (hunit : s.indentation.unit = some u ∨ level = 0) :
    (loopCall handle ⟨name, level, items⟩ w).runFrom s =
      (handle (sourceLine u level (Item.call name (some [w]) false).written [])).runFrom s := by
  simp only [loopCall, runFrom_bind, blanks_run hunit, runFrom_get, hdefining, sourceLine_loopCall]

theorem unrollLoop_run {loop : Loop} (hloops : s.loops = loop :: rest) :
    (unrollLoop handle).runFrom s = (loop.items.forM (loopCall handle loop)).runFrom
      (s.popLoop loop.level rest) := by
  simp only [unrollLoop, runFrom_bind, runFrom_get, hloops, runFrom_set, setLevel, runFrom_modify]
  rfl

section Line
variable (handle) (h : Calm tag) (hu : isUnit u) (he : LineEnd e) (hloops : s.loops = ⟨name, level, items⟩ :: rest)
include h hu he hloops

theorem loopLine_inside (hdepth : (depthOf (sourceLine u k tag e)).runFrom s = (.ok k, s))
    (hunit : s.indentation.unit = some u) (hm : s.methods.get? name = some m) (hk : level < k) :
    (loopLine handle (sourceLine u k tag e)).runFrom s = (.ok (), (s.withLevel k).withMethod name
        { m with lines := m.lines ++ [⟨false, sourceLine u (k - level - 1) tag e, []⟩] }) := by
  rw [loopLine_adds handle h.solid h.isLoopStart hu he hdepth hunit hloops hm hk, h.addLine hu he]

theorem loopLine_outside (hdepth : (depthOf (sourceLine u k tag e)).runFrom s = (.ok k, s)) (hk : k ≤ level) :
    (loopLine handle (sourceLine u k tag e)).runFrom s = (do
      items.forM (loopCall handle ⟨name, level, items⟩)
      handle (sourceLine u k tag e)).runFrom (s.popLoop level rest) := by
  have hdeep : (k : Int) - (level : Int) < 1 := by omega
  simp [loopLine, runFrom_bind, hdepth, h.trim_sourceLine hu he, h.isLoopStart, hloops, hdeep, unrollLoop_run hloops]

variable (hi : ({ s with loops := [] } : Session).Idle tags u) (hreads : s.Reads u k)
include hi hreads

theorem line_eq_loopLine : (line handle (sourceLine u k tag e)).runFrom s =
      (loopLine handle (sourceLine u k tag e)).runFrom (s.learn u k) := by
  have hverbatims : s.verbatims = [] := hi.verbatims
  exact line_open h.solid (h.head?_ne rfl (by decide)) (h.expand_sourceLine hu he) h.declaresVerbatim hu he hi.block
    (by rw [hverbatims]; rfl) hi.defining hreads (by simp [hloops])

theorem line_in_loop (hm : s.methods.get? name = some m) (hk : level < k) :
    (line handle (sourceLine u k tag e)).runFrom s = (.ok (), ((s.learn u k).withLevel k).withMethod name
        { m with lines := m.lines ++ [⟨false, sourceLine u (k - level - 1) tag e, []⟩] }) := by
  have hunit : (s.learn u k).indentation.unit = some u := Session.learn_unit.resolve_right (by omega)
  rw [line_eq_loopLine handle h hu he hloops hi hreads]
  exact loopLine_inside handle h hu he hloops (depthOf_learnt h.solid hu hreads) hunit hm hk

theorem line_ends_loop (hk : k ≤ level) : (line handle (sourceLine u k tag e)).runFrom s = (do
      items.forM (loopCall handle ⟨name, level, items⟩)
      handle (sourceLine u k tag e)).runFrom ((s.learn u k).popLoop level rest) := by
  rw [line_eq_loopLine handle h hu he hloops hi hreads]
  exact loopLine_outside handle h hu he hloops (depthOf_learnt h.solid hu hreads) hk

end Line

end Compile
end OutlineMarkup
