import OutlineMarkup.Proofs.Undeclared
import OutlineMarkup.Proofs.Units
import OutlineMarkup.Proofs.VerbatimLines

/-!
# Lines of template engines

A template engine is declared with a format, and its methods with the texts above and below what they
enclose. The module says what such declarations leave, and what a line does that calls such a method:
the call is taken for one inside a line, where a method with a text below is turned down.
-/

namespace OutlineMarkup
open List Text Action Verbatim Table Assignment

open Bool (and_eq_true not_eq_true' false_eq_true not_eq_true)

/-- A template engine and a method of it that encloses lines. The format stands on both sides of its
place. -/
structure BlockEngine where
  name : Text
  left : Text
  right : Text
  method : Text
  opening : Text
  closing : Text
  deriving Repr, DecidableEq

namespace BlockEngine

def format (b : BlockEngine) : Text := b.left ++ '%' :: 's' :: b.right

def engineText (b : BlockEngine) : Text :=
  b.name ++ " = TemplateEngine('" ++ b.format ++ "')"

def called (b : BlockEngine) : Text := b.name ++ '.' :: b.method

def methodText (b : BlockEngine) : Text :=
  b.called ++ " = create('" ++ b.opening ++ "', '" ++ b.closing ++ "')"

def callLine (b : BlockEngine) (args : List Text) : Text := callText b.called [' '] args [':']

def engine (b : BlockEngine) : Engine :=
  (Engine.ofFormat b.format).addMethod b.method b.opening (some b.closing)

end BlockEngine

/-- Holds no sign or word that makes an assignment, an array or a verbatim block of a line. -/
def isClear (t : Text) : Bool :=
  !t.has "verbatim" && !t.has "code_block" && !t.has Assignment.sign && !Assignment.isCompound t &&
    !t.hasChar '[' && !t.hasChar '\n'

/-- A text that is one attribute in single quotes. -/
def isQuotable (t : Text) : Bool :=
  t.all (!List.contains ['\'', '"', ',', '(', ')'] ·) &&
    (Attributes.expand (Verbatim.quoted t)).toOption == some (Verbatim.quoted t)

namespace BlockEngine

def isDeclarable (b : BlockEngine) : Bool :=
  isCallName b.name && !List.contains ["for".toList, "def".toList, "import".toList] b.name &&
    isCallName b.method &&
    (b.left ++ b.right).all (!List.contains ['%', '\'', '"', '=', '(', ')'] ·) &&
    !b.format.getLast?.any Text.isBlank && isQuotable b.opening && isQuotable b.closing &&
    isClear b.engineText && isClear b.methodText && !b.methodText.has "TemplateEngine" &&
    !b.methodText.has Call.expressionMark

/-- A call whose line is not taken for a declaration. -/
def isCallable (b : BlockEngine) (args : List Text) : Bool :=
  args.all isBareWord && isClear (b.callLine args) && !(b.callLine args).has "TemplateEngine" &&
    !(b.callLine args).has Call.expressionMark && !(b.callLine args).has ".append(" &&
    !(b.callLine args).has "create("

/-- The first two characters of a call differ. -/
def isApart (b : BlockEngine) : Bool := b.called.head? != b.called[1]?

end BlockEngine

/-! ## Formats -/

namespace Expression

theorem formatFrom_append {t : Text} (h : '%' ∉ t) (s : Text) (args : List Value) :
    formatFrom 0 (t ++ s) args = (formatFrom 0 s args).map (t ++ ·) := by
  induction t with
  | nil =>
    rw [nil_append]
    cases formatFrom 0 s args <;> rfl
  | cons c t ih =>
    have hc : (c == '%') = false := beq_eq_false_iff_ne.mpr fun e => h (e ▸ mem_cons_self)
    rw [cons_append, formatFrom, hc, ih fun hm => h (.tail _ hm)]
    cases formatFrom 0 s args <;> rfl

theorem formatFrom_place (v t : Text) (args : List Value) :
    formatFrom 0 ('%' :: 's' :: t) (.text v :: args) = (formatFrom 0 t args).map (v ++ ·) := by
  have hread : Directive.read ('s' :: t) (.text v :: args) = .ok (⟨[], 0, false, none, 's', 1⟩, .text v :: args) := by
    have hlength : ('s' :: t).length - t.length = 1 := by simp
    rw [← hlength]
    rfl
  have hpiece : Directive.convert ⟨[], 0, false, none, 's', 1⟩ (.text v) = .ok v := by
    simp [Directive.convert, Directive.pad, padLeft, Value.plain]
  rw [formatFrom]
  simp only [beq_self_eq_true, if_true, hread]
  change (do
    let piece ← Directive.convert ⟨[], 0, false, none, 's', 1⟩ (.text v)
    return piece ++ (← formatFrom 1 ('s' :: t) args)) = _
  rw [hpiece, formatFrom]
  cases formatFrom 0 t args <;> rfl

theorem format_single {left right : Text} (hl : '%' ∉ left) (hr : '%' ∉ right) (t : Text) :
    format (left ++ '%' :: 's' :: right) [.text t] = .ok (left ++ t ++ right) := by
  have hright := formatFrom_append hr [] []
  rw [append_nil] at hright
  rw [format, formatFrom_append hl, formatFrom_place, hright]
  simp [formatFrom, Except.map]

end Expression

/-! ## Calls -/

namespace Call

theorem findFrom_skip {after? : Text → Option Text} {a b : Text} (h : ∀ t, t <:+ b → after? t = none)
    (p : Option Char) : findFrom after? a.length p (a ++ b) = [] := by
  induction a generalizing p with
  | nil => exact findFrom_eq_nil h p
  | cons c a ih =>
    rw [cons_append, length_cons, findFrom]
    exact ih (some c)

theorem findFrom_single {after? : Text → Option Text} {a b : Text} (hne : a ≠ [])
    (ha : after? (a ++ b) = some b) (hb : ∀ t, t <:+ b → after? t = none) :
    findFrom after? 0 none (a ++ b) = [a] := by
  obtain ⟨c, a, rfl⟩ := exists_cons_of_ne_nil hne
  have hlength : (a ++ b).length - b.length = a.length := by simp
  have htake : (c :: (a ++ b)).take ((a ++ b).length + 1 - b.length) = c :: a := by
    have : (a ++ b).length + 1 - b.length = (c :: a).length := by
      simp only [length_append, length_cons]
      omega
    rw [this, ← cons_append, take_left]
  rw [cons_append] at ha ⊢
  rw [findFrom, Option.any_none, if_neg Bool.false_ne_true, ha]
  simp only [hlength, htake]
  rw [findFrom_skip hb]

theorem afterName?_append {n r : Text} {c : Char} (hn : isCallName n) (hr : r.head? = some c)
    (hc : isWordChar c = false) : afterName? (n ++ r) = some r := by
  have hname := callName_of_isCallName hn
  obtain ⟨d, t, rfl⟩ := exists_cons_of_ne_nil hname.ne_nil
  obtain ⟨q, rfl⟩ := head?_eq_some_iff.mp hr
  have hd : isNameStart d := by
    rw [isCallName, and_eq_true] at hn
    simp [isNameStart, hn.1]
  rw [afterName?, dropWhile_append_of_pos hname.chars, dropWhile_cons_of_neg (by simp [hc])]
  simp [hd]

theorem afterParentheses?_append {a r : Text} (h : ∀ c ∈ a, isParenthesis c = false) :
    afterParentheses? ('(' :: (a ++ ')' :: r)) = some r := by
  have hdrop : (a ++ ')' :: r).dropWhile (!isParenthesis ·) = ')' :: r := by
    rw [dropWhile_append_of_pos (by simpa using h), dropWhile_cons_of_neg (by simp [isParenthesis])]
  unfold afterParentheses?
  simp [hdrop]

end Call

namespace BlockEngine

structure Declarable (b : BlockEngine) : Prop where
  name : isCallName b.name = true
  word : b.name ∉ ["for".toList, "def".toList, "import".toList]
  method : isCallName b.method = true
  signs : ∀ c ∈ b.left ++ b.right, c ∉ ['%', '\'', '"', '=', '(', ')']
  last : ∀ c ∈ b.format.getLast?, Text.isBlank c = false
  opening : isQuotable b.opening = true
  closing : isQuotable b.closing = true
  clear : isClear b.engineText = true
  methodClear : isClear b.methodText = true
  methodEngine : b.methodText.has "TemplateEngine" = false
  methodMark : b.methodText.has Call.expressionMark = false

variable {b : BlockEngine} {args : List Text} {tail : Text} {c : Char}

theorem declarable_of_isDeclarable (h : b.isDeclarable) : b.Declarable := by
  simp only [isDeclarable, and_eq_true, not_eq_true'] at h
  obtain ⟨⟨⟨⟨⟨⟨⟨⟨⟨⟨hname, hword⟩, hmethod⟩, hsigns⟩, hlast⟩, hopening⟩, hclosing⟩, hclear⟩, hmclear⟩,
    hengine⟩, hmark⟩ := h
  refine ⟨hname, ?_, hmethod, ?_, ?_, hopening, hclosing, hclear, hmclear, hengine, hmark⟩
  · simpa using hword
  · intro c hc
    simpa using all_eq_true.mp hsigns c hc
  · intro c hc
    rw [Option.mem_def] at hc
    rwa [hc, Option.any_some] at hlast

theorem Declarable.name_not_mem (h : b.Declarable) (hc : isWordChar c = false) :
    c ∉ b.name := (callName_of_isCallName h.name).not_mem hc

theorem Declarable.method_not_mem (h : b.Declarable) (hc : isWordChar c = false) :
    c ∉ b.method := (callName_of_isCallName h.method).not_mem hc

theorem Declarable.solid_called (h : b.Declarable) : Solid b.called := by
  constructor
  · obtain ⟨c, hc, hb⟩ := (callName_of_isCallName h.name).solid.head
    exact ⟨c, by simp [called, head?_append, hc], hb⟩
  · obtain ⟨c, hc, hb⟩ := (callName_of_isCallName h.method).solid.last
    exact ⟨c, by simp [called, getLast?_append, getLast?_cons, hc], hb⟩

theorem mem_arguments (h : args.all isBareWord) :
    ∀ c ∈ join [',', ' '] args, isWordChar c ∨ c = ',' ∨ c = ' ' := by
  intro c hc
  rcases mem_join hc with hm | ⟨w, hw, hm⟩
  · simpa using Or.inr hm
  · have hword := all_eq_true.mp h w hw
    rw [isBareWord, and_eq_true] at hword
    exact .inl (all_eq_true.mp hword.2 c hm)

theorem isParenthesis_arguments (h : args.all isBareWord) :
    ∀ c ∈ join [',', ' '] args, Call.isParenthesis c = false := by
  intro c hc
  rcases mem_arguments h c hc with hword | rfl | rfl
  · have hopen : c ≠ '(' := ne_of_class hword (by decide)
    have hclose : c ≠ ')' := ne_of_class hword (by decide)
    simp [Call.isParenthesis, hopen, hclose]
  · rfl
  · rfl

theorem callText_called (b : BlockEngine) (args : List Text) (tail : Text) :
    callText b.called [' '] args tail =
      b.name ++ '.' :: (b.method ++ '(' :: (join [',', ' '] args ++ ')' :: tail)) := by
  simp [callText, called]

theorem callLine_eq (b : BlockEngine) (args : List Text) :
    b.callLine args = callText b.called [' '] args [] ++ [':'] := by
  simp [callLine, callText]

theorem Declarable.engineCalls_eq (h : b.Declarable) (hargs : args.all isBareWord) :
    Call.engineCalls (b.callLine args) = [callText b.called [' '] args []] := by
  have hafter : Call.afterEngineCall? (b.callLine args) = some [':'] := by
    rw [callLine, callText_called, Call.afterEngineCall?, Call.afterName?_append h.name rfl rfl]
    change Option.bind (Call.afterName? (b.method ++ '(' :: _)) Call.afterParentheses? = _
    rw [Call.afterName?_append h.method rfl rfl, Option.bind_some,
      Call.afterParentheses?_append (isParenthesis_arguments hargs)]
  rw [callLine_eq] at hafter ⊢
  refine Call.findFrom_single (by simp [callText, called]) hafter ?_
  intro t ht
  exact Call.afterEngineCall?_eq_none fun hm => absurd (ht.subset hm) (by decide)

theorem Declarable.isOutsideQuotes_eq (h : b.Declarable) (hargs : args.all isBareWord) :
    Call.isOutsideQuotes (callText b.called [' '] args []) (b.callLine args) = .ok true := by
  have hword : ∀ c, isWordChar c → (Call.isParenthesis c || c == '.' || !Pattern.isSpecial c) := by
    intro c hc
    rw [Compile.isSpecial_eq_false_of_class hc (by decide)]
    simp
  have hsigns : ((callText b.called [' '] args []).all fun c =>
      Call.isParenthesis c || c == '.' || !Pattern.isSpecial c) := by
    rw [callText_called, all_eq_true]
    intro c hc
    simp only [mem_append, mem_cons, not_mem_nil, or_false] at hc
    rcases hc with hc | rfl | hc | rfl | hc | rfl
    · exact hword c ((callName_of_isCallName h.name).chars c hc)
    · rfl
    · exact hword c ((callName_of_isCallName h.method).chars c hc)
    · rfl
    · rcases mem_arguments hargs c hc with hc | rfl | rfl
      · exact hword c hc
      · rfl
      · rfl
    · rfl
  have hstands : Call.standsOutside (callText b.called [' '] args []) true none (b.callLine args) := by
    obtain ⟨c, hc, hletter⟩ := (callName_of_isCallName h.name).head
    obtain ⟨r, hr⟩ := head?_eq_some_iff.mp hc
    have hcall : ∃ t, callText b.called [' '] args [] = c :: t := by
      refine ⟨r ++ '.' :: (b.method ++ '(' :: (join [',', ' '] args ++ [')'])), ?_⟩
      rw [callText_called, hr]
      rfl
    obtain ⟨t, ht⟩ := hcall
    rw [callLine_eq, ht, cons_append, Call.standsOutside]
    simp [hletter]
  rw [Call.isOutsideQuotes, if_pos hsigns, hstands]

end BlockEngine

open BlockEngine (called engine callLine methodText engineText callText_called)

theorem Table.set_of_get? {α : Type} {t : Table α} {name : Text} {a : α} (h : t.get? name = some a) :
    t.set name a = t := by
  induction t with
  | nil => cases h
  | cons p t ih =>
    obtain ⟨k, c⟩ := p
    by_cases hk : k = name
    · simp only [get?, if_pos hk, Option.some.injEq] at h
      rw [set, if_pos hk, h]
    · simp only [get?, if_neg hk] at h
      rw [set, if_neg hk, ih h]

namespace Compile
variable {b : BlockEngine} {args : List Text} {s : Session}

theorem calledNames_call (h : b.Declarable) (args : List Text) :
    calledNames (callText b.called [' '] args []) = (b.name, some b.method) := by
  have hparen : '(' ∉ b.called := by
    simp [called, h.name_not_mem (c := '(') rfl, h.method_not_mem (c := '(') rfl]
  have hbefore : ((callText b.called [' '] args []).before "(").trimRight = b.called := by
    have : (callText b.called [' '] args []).before "(" = b.called := before_append_cons hparen
    rw [this, h.solid_called.trimRight_eq]
  have hcut : b.called.cutLast? "." = some (b.name, b.method) := cutLast?_append_cons (h.method_not_mem rfl)
  rw [calledNames, hbefore, hcut]

theorem finish_engine (h : b.Declarable) : (Engine.finish b.method true).runFrom b.engine =
      (.ok (some (b.left ++ b.closing ++ (b.right ++ ['\n']))), b.engine) := by
  have hsign : ∀ c ∈ b.left ++ b.right, c ≠ '%' := fun c hc e => h.signs c hc (by simp [e])
  have hleft : '%' ∉ b.left := fun hm => hsign _ (mem_append_left _ hm) rfl
  have hright : '%' ∉ b.right ++ ['\n'] := by
    have : '%' ∉ b.right := fun hm => hsign _ (mem_append_right _ hm) rfl
    simpa using this
  have hformat : b.engine.format = b.left ++ '%' :: 's' :: (b.right ++ ['\n']) := by
    simp [engine, Engine.addMethod, Engine.ofFormat, BlockEngine.format]
  have htag : b.engine.tag b.closing = .ok (b.left ++ b.closing ++ (b.right ++ ['\n'])) := by
    rw [Engine.tag, hformat]
    exact Expression.format_single hleft hright _
  have hmethod : b.engine.method b.method =
      .ok ⟨b.opening, b.opening.occurrences "%s", some b.closing, []⟩ := by
    simp [engine, Engine.method, Engine.addMethod]
  have hopen : { b.engine with openCalls := b.engine.openCalls.drop 1 } = b.engine := rfl
  simp only [Engine.finish, runFrom_bind, runFrom_get, runFrom_modify,
    runFrom_liftM, hmethod, htag, hopen, if_true]
  rfl

theorem withEngine_run {α : Type} {name : Text} {e : Engine} {x : Action Engine α}
    {r : Except Fault α} (he : s.engines.get? name = some e) (hx : x.runFrom e = (r, e)) :
    (withEngine name x).runFrom s = (r, s) := by
  simp [withEngine, runFrom_bind, he, hx, Table.set_of_get? he]

theorem callEngine_block (h : b.Declarable) (he : s.engines.get? b.name = some b.engine) (args : List Text) :
    (callEngine (callText b.called [' '] args []) none).runFrom s = (.error (.rejected .engineCall), s) := by
  have hhas : s.engines.has b.name := by
    rw [Table.has, he]
    rfl
  have hbranch : ((do (← get).isBranch b.method none : Action Engine Bool)).runFrom b.engine =
      (.ok false, b.engine) := rfl
  simp [callEngine, callEngineMethod, runFrom_tryCatch, runFrom_bind, calledNames_call h, hhas, withEngine_run he (finish_engine h), withEngine_run he hbranch]

/-- A line that calls the method is turned down, unless it starts with the second character of the
call. -/
theorem engineLine_block (h : b.Declarable) (hapart : b.isApart)
    (he : s.engines.get? b.name = some b.engine) (hargs : args.all isBareWord) (depth : Nat) :
    (engineLine depth (b.callLine args)).runFrom s = (.error (.rejected .engineCall), s) := by
  have hsingle : isSingleCall (b.callLine args) [callText b.called [' '] args []] = false := by
    obtain ⟨c, d, r, hr⟩ : ∃ c d r, b.called = c :: d :: r := by
      obtain ⟨c, n, hn⟩ := exists_cons_of_ne_nil (callName_of_isCallName h.name).ne_nil
      obtain ⟨d, r, hr⟩ := exists_cons_of_ne_nil (l := n ++ '.' :: b.method) (by simp)
      exact ⟨c, d, r, by rw [called, hn, cons_append, hr]⟩
    have hne : c ≠ d := by simpa [BlockEngine.isApart, hr] using hapart
    simpa [isSingleCall, callLine, callText, hr] using hne
  have hof : engineOf (callText b.called [' '] args []) = b.name := by
    rw [callText_called]
    exact before_append_cons (h.name_not_mem rfl)
  have hhas : s.engines.has b.name := by
    rw [Table.has, he]
    rfl
  have hsubstitute : (substituteCall (b.callLine args) (callText b.called [' '] args [])).runFrom s =
      (.error (.rejected .engineCall), s) := by
    simp only [substituteCall, h.isOutsideQuotes_eq hargs, runFrom_bind, runFrom_liftM,
      runFrom_get, hof, hhas, Bool.and_self, if_true, callEngine_block h he]
  simp [engineLine, h.engineCalls_eq hargs, hsingle, hsubstitute]

end Compile

/-! ## Declarations -/

namespace BlockEngine
variable {b : BlockEngine}

theorem engineText_eq (b : BlockEngine) : b.engineText = (b.name ++ [' ']) ++ '=' :: (" TemplateEngine" ++
      '(' :: ('\'' :: b.format ++ "')")) := by
  simp [engineText]

theorem Declarable.format_not_mem (h : b.Declarable) {c : Char} (hc : c ∈ ['\'', '"', '=', '(', ')']) :
    c ∉ b.format := by
  intro hm
  simp only [format, mem_append, mem_cons] at hm
  rcases hm with hm | rfl | rfl | hm
  · exact h.signs c (mem_append_left _ hm) (.tail _ hc)
  · simp at hc
  · simp at hc
  · exact h.signs c (mem_append_right _ hm) (.tail _ hc)

theorem Declarable.engineFormat_eq (h : b.Declarable) :
    Compile.engineFormat (" TemplateEngine" ++ '(' :: ('\'' :: b.format ++ "')")) = b.format := by
  obtain ⟨value, hvalue⟩ : ∃ value : Text,
    value = " TemplateEngine" ++ '(' :: ('\'' :: b.format ++ "')") := ⟨_, rfl⟩
  have hstart : value.find? "(" = some 15 := by
    have hcut : value.cut? "(" = some (" TemplateEngine".toList, '\'' :: b.format ++ "')".toList) := by
      rw [hvalue]
      exact cut?_append_cons (by decide)
    rw [Text.find?, hcut]
    rfl
  have hstop : (value.cutLast? ")").map (·.1.length) = some (18 + b.format.length) := by
    have hcut : value.cutLast? ")" = some (" TemplateEngine('" ++ b.format ++ ['\''], []) := by
      have hsplit : value = (" TemplateEngine('" ++ b.format ++ ['\'']) ++ ')' :: [] := by
        rw [hvalue]
        simp
      rw [hsplit]
      exact cutLast?_append_cons (by simp)
    rw [hcut]
    simp
    omega
  have hslice : value.slice 16 (17 + b.format.length) = '\'' :: b.format := by
    have hsplit : value = (" TemplateEngine(" ++ ('\'' :: b.format)) ++ "')" := by
      rw [hvalue]
      simp
    have hlength : value.length = 19 + b.format.length := by
      rw [hsplit]
      simp
      omega
    have htake : value.take (17 + b.format.length) = " TemplateEngine(" ++ ('\'' :: b.format) := by
      rw [hsplit]
      refine take_left' ?_
      simp
      omega
    have hfirst : clampIndex value.length 16 = 16 := by
      rw [hlength, clampIndex]
      simp
      omega
    have hlast : clampIndex value.length (17 + b.format.length) = 17 + b.format.length := by
      rw [hlength, clampIndex]
      split <;> omega
    simp only [slice, hfirst, hlast, htake]
    rfl
  have hsolid : Text.Solid ('\'' :: b.format) := by
    have hne : b.format ≠ [] := by simp [format]
    refine ⟨⟨_, rfl, rfl⟩, ⟨b.format.getLast hne, ?_, h.last _ (getLast?_eq_some_getLast hne)⟩⟩
    rw [getLast?_cons, getLast?_eq_some_getLast hne]
    rfl
  have hclass : ∀ q ∈ ['\'', '"'], ∀ c ∈ b.format, (c == q) = false := by
    intro q hq c hc
    refine beq_eq_false_iff_ne.mpr fun e => h.format_not_mem (c := q) ?_ (e ▸ hc)
    simp only [mem_cons, not_mem_nil, or_false] at hq ⊢
    tauto
  have hquote : trimOf ('\'' :: b.format) (· == '\'') = b.format := by
    have := trimOf_eq_self (hclass '\'' (by simp))
    rw [trimOf] at this ⊢
    rw [dropWhile_cons_of_pos (by simp), this]
  rw [← hvalue]
  simp only [Compile.engineFormat, hstart, hstop, Compile.positionOr, Option.map_some, Option.getD_some]
  have hbounds : (Int.ofNat 15 + 1 : Int) = 16 ∧ (Int.ofNat (18 + b.format.length) - 1 : Int) =
      17 + b.format.length := by
    constructor
    · rfl
    · rw [Int.ofNat_eq_natCast]
      omega
  rw [hbounds.1, hbounds.2, hslice, hsolid.trim_eq, hquote]
  exact trimOf_eq_self (hclass '"' (by simp))

end BlockEngine

namespace Compile
variable {b : BlockEngine} {s : Session}

theorem declareEngine_run (h : b.Declarable) (s : Session) : (declareEngine b.engineText).runFrom s =
      (.ok (), { s with engines := s.engines.set b.name (Engine.ofFormat b.format) }) := by
  have hsplit : b.engineText.splitAtChar '=' = [b.name ++ [' '],
      " TemplateEngine" ++ '(' :: ('\'' :: b.format ++ "')")] := by
    have hname : '=' ∉ b.name ++ [' '] := by
      simp [h.name_not_mem (c := '=') rfl]
    have hvalue : '=' ∉ " TemplateEngine" ++ '(' :: ('\'' :: b.format ++ "')") := by
      simp [h.format_not_mem (c := '=') (by simp)]
    rw [BlockEngine.engineText_eq, splitAtChar_append_cons hname, splitAtChar_of_not_mem hvalue]
  have halpha : isAlphanumeric (b.name ++ [' ']) = false := by
    simp [isAlphanumeric]
  have htrim : trimRight (b.name ++ [' ']) = b.name :=
    trimRight_append_solid (by simp [isBlank]) (callName_of_isCallName h.name).solid
  simp only [declareEngine, hsplit, halpha, Bool.false_and, false_eq_true, if_false, htrim,
    h.engineFormat_eq, runFrom_modify]

theorem inner_quoted (t : Text) : (Verbatim.quoted t).inner = t := by simp [Verbatim.quoted, Text.inner]

theorem whole_of_isQuotable {t : Text} (h : isQuotable t) (hnl : '\n' ∉ t) :
    Attributes.Whole (Verbatim.quoted t) := by
  rw [isQuotable, and_eq_true, all_eq_true, beq_iff_eq] at h
  refine Verbatim.whole_of_expand ?_ ?_
  · intro c hc hm
    simp only [mem_cons, not_mem_nil, or_false] at hc
    rcases hc with rfl | rfl | rfl | rfl
    · simpa using h.1 _ hm
    · simpa using h.1 _ hm
    · simpa using h.1 _ hm
    · exact hnl hm
  · cases he : Attributes.expand (Verbatim.quoted t) with
    | error f =>
      rw [he] at h
      cases h.2
    | ok a =>
      rw [he] at h
      exact congrArg _ (Option.some.inj h.2)

theorem methodText_eq (b : BlockEngine) : b.methodText = (b.called ++ [' ']) ++ '=' :: ([' '] ++
      callText "create" [' '] [Verbatim.quoted b.opening, Verbatim.quoted b.closing] []) := by
  simp [methodText, callText, join, Verbatim.quoted]

theorem read_methodText (h : b.Declarable) :
    EngineDeclaration.read b.methodText = .ok ⟨b.name, b.method, "create",
      [Verbatim.quoted b.opening, Verbatim.quoted b.closing]⟩ := by
  have hclear := h.methodClear
  simp only [isClear, and_eq_true, not_eq_true', hasChar_eq_false_iff] at hclear
  have hnl : ∀ t : Text, t <:+: b.methodText → '\n' ∉ t := fun t ht hm => hclear.2 (ht.subset hm)
  have hopening : b.opening <:+: b.methodText := ⟨b.called ++ " = create('", "', '" ++ b.closing ++ "')", by
      simp [methodText]⟩
  have hclosing : b.closing <:+: b.methodText := ⟨b.called ++ " = create('" ++ b.opening ++ "', '", "')", by
      simp [methodText]⟩
  have hread : Definition.read ([' '] ++
      callText "create" [' '] [Verbatim.quoted b.opening, Verbatim.quoted b.closing] []) =
      .ok ⟨"create", [Verbatim.quoted b.opening, Verbatim.quoted b.closing]⟩ := by
    refine read_blank_callText (callName_of_isCallName rfl) (by simp) ?_
    intro p hp
    simp only [mem_cons, not_mem_nil, or_false] at hp
    rcases hp with rfl | rfl
    · exact whole_of_isQuotable h.opening (hnl _ hopening)
    · exact whole_of_isQuotable h.closing (hnl _ hclosing)
  have hcut : b.methodText.cut? "=" = some (b.called ++ [' '], [' '] ++
      callText "create" [' '] [Verbatim.quoted b.opening, Verbatim.quoted b.closing] []) := by
    rw [methodText_eq]
    refine cut?_append_cons ?_
    simp [called, h.name_not_mem (c := '=') rfl, h.method_not_mem (c := '=') rfl]
  have htrim : trimRight (b.called ++ [' ']) = b.called :=
    trimRight_append_solid (by simp [isBlank]) h.solid_called
  have hnames : b.called.cutLast? "." = some (b.name, b.method) := cutLast?_append_cons (h.method_not_mem rfl)
  simp only [EngineDeclaration.read, hcut, hread, htrim, hnames]
  rfl

theorem defineEngineMethod_run (h : b.Declarable) {e : Engine} (he : s.engines.get? b.name = some e) :
    (defineEngineMethod b.methodText).runFrom s = (.ok (), { s with
      engines := s.engines.set b.name (e.addMethod b.method b.opening (some b.closing)) }) := by
  have hcreate : has (b.methodText.filter (· != ' ')) "create(" := by
    have hsplit : b.methodText = (b.called ++ " = ") ++ ("create(" ++
        ('\'' :: b.opening ++ "', '" ++ b.closing ++ "')")) := by
      simp [methodText]
    have hword : "create(".toList.filter (· != ' ') = "create(" := by decide
    rw [has_iff_isInfix, hsplit, filter_append, filter_append "create(".toList, hword]
    exact ⟨_, _, append_assoc _ _ _⟩
  have hclear := h.methodClear
  simp only [isClear, and_eq_true, not_eq_true'] at hclear
  have hhas : s.engines.has b.name := by
    rw [Table.has, he]
    rfl
  simp only [defineEngineMethod, hcreate, if_true, runFrom_bind, runFrom_liftM,
    read_methodText h, createEngineMethod, addEngineMethod, runFrom_get, hhas, Bool.not_true,
    false_eq_true, if_false, quotedAttribute, withEngine, hclear.1.1.1.2, hclear.1.1.2]
  simp [inner_quoted, runFrom_bind, he]

end Compile

/-! ## Lines -/

namespace Compile
variable {handle : Handler} {b : BlockEngine} {args : List Text} {s t : Session}
  {u tag line e name r rest w : Text} {k : Nat} {c : Char} {tags : TagTable}

namespace Undeclared

theorem declarationLine_dotted (h : Undeclared line) (hpoint : '.' ∈ line.trim) (depth : Nat) :
    (declarationLine handle depth line).runFrom s = (dottedLine depth line).runFrom s := by
  have hhas : line.trim.hasChar '.' := (hasChar_iff _ _).mpr hpoint
  simp only [declarationLine, h.sign, h.compound, h.imports, h.engine, hhas, false_eq_true, if_false,
    if_true]

theorem plainLine_dotted (h : Undeclared line) (hpoint : '.' ∈ line.trim) (hloops : s.loops = [])
    (hdefining : s.defining = none) {depth : Nat} {r : Except Fault Unit}
    (hdotted : (dottedLine depth line).runFrom s = (r.map fun _ => none, t)) (space : Text) :
    (plainLine handle depth space line).runFrom s = (r, t) := by
  have hdef := Session.isDefining_eq_false hdefining
  simp only [plainLine, runFrom_bind, runFrom_get, h.verbatim, h.loop, h.method, hloops,
    hdef, h.declarationLine_dotted hpoint, hdotted, isEmpty_nil, Bool.not_true, Bool.not_false,
    Bool.or_self, Bool.and_false, false_eq_true, if_false]
  cases r <;> rfl

end Undeclared

theorem head?_append_name (hn : CallName name) (hc : isWordChar c = false) :
    (name ++ r).head? ≠ some c := by
  obtain ⟨d, hd, hletter⟩ := hn.head
  rw [head?_append_of_ne_nil _ hn.ne_nil, hd]
  exact fun e => ne_of_class hletter hc (Option.some.inj e)

theorem solid_append_name (hn : CallName name) (hc : isBlank c = false) : Solid (name ++ (r ++ [c])) := by
  obtain ⟨d, hd, hletter⟩ := hn.head
  refine ⟨⟨d, ?_, isBlank_eq_false_of_isWordChar hletter⟩, ⟨c, ?_, hc⟩⟩
  · rw [head?_append_of_ne_nil _ hn.ne_nil, hd]
  · rw [← append_assoc, getLast?_concat]

theorem isCompound_sourceLine (h : isCompound tag = false) (hu : isUnit u)
    (he : LineEnd e) : isCompound (sourceLine u k tag e) = false := by
  rw [isCompound, any_eq_false] at h ⊢
  intro op hop
  have hclass : ∀ op ∈ operators, op.1 ≠ [] ∧ ∀ c ∈ op.1, isBlank c = false := by decide
  rw [not_eq_true]
  exact has_sourceLine_eq_false (hclass op hop).1 (hclass op hop).2 (not_eq_true _ ▸ h op hop) hu he

theorem isPrefixOf_dotted (hname : CallName name) (hne : w ≠ [])
    (hw : ∀ c ∈ w, isWordChar c) (hu : isUnit u) :
    (w ++ [' ']).isPrefixOf (sourceLine u k (name ++ '.' :: rest) e) = false := by
  rw [← not_eq_true, isPrefixOf_iff_prefix]
  rintro ⟨r, hr⟩
  cases k with
  | zero =>
    have hdrop := congrArg (dropWhile isWordChar) hr
    rw [append_assoc, dropWhile_append_of_pos hw, sourceLine, times_zero, nil_append,
      append_assoc, dropWhile_append_of_pos hname.chars] at hdrop
    cases hdrop
  | succ k =>
    obtain ⟨c, v, rfl⟩ := exists_cons_of_ne_nil hne
    have hblank : isBlank c := Steady.isBlank_of_head?_indented hu (congrArg head? hr).symm
    rw [isBlank_eq_false_of_isWordChar (hw c mem_cons_self)] at hblank
    cases hblank

theorem undeclared_dotted (hname : CallName name)
    (hsolid : Solid (name ++ '.' :: rest)) (hclear : isClear (name ++ '.' :: rest))
    (hengine : (name ++ '.' :: rest).has "TemplateEngine" = false) (hu : isUnit u) (he : LineEnd e) :
    Undeclared (sourceLine u k (name ++ '.' :: rest) e) := by
  simp only [isClear, and_eq_true, not_eq_true'] at hclear
  obtain ⟨⟨⟨⟨⟨hverbatim, hblock⟩, hsign⟩, hcompound⟩, _⟩, _⟩ := hclear
  have htrim := hsolid.trim_sourceLine (k := k) hu he
  refine ⟨?_, ?_, ?_, ?_, isCompound_sourceLine hcompound hu he, ?_, hasEngine_eq_false hengine hu he, ?_⟩
  · rw [htrim]
    exact declaresVerbatim_of_has hverbatim hblock
  · have hfor : ("for" ++ [' ']).isPrefixOf (sourceLine [' '] 0 (name ++ '.' :: rest) []) = false :=
      isPrefixOf_dotted hname (by decide) (by decide) rfl
    rw [htrim, isLoopStart]
    simpa [sourceLine] using hfor
  · exact isPrefixOf_dotted (w := "def") hname (by decide) (by decide) hu
  · rw [htrim]
    exact hsign
  · exact isPrefixOf_dotted (w := "import") hname (by decide) (by decide) hu
  · intro heq
    have hpoint : '.' ∈ endMark := by
      rw [← heq]
      simp [sourceLine]
    exact absurd hpoint (by decide)

theorem expand_clear (hclear : isClear tag) (hu : isUnit u) (he : LineEnd e) :
    Shorthand.expand (sourceLine u k tag e) = .ok (sourceLine u k tag e) := by
  simp only [isClear, and_eq_true, not_eq_true', hasChar_eq_false_iff] at hclear
  refine shorthand_eq_self ?_
  simp [sourceLine, not_mem_times hu (c := '[') rfl, hclear.1.2, he.not_mem (c := '[') (by decide)]

theorem line_blockCall (h : b.Declarable) (hapart : b.isApart)
    (hargs : b.isCallable args) (hs : s.Idle tags u) (hr : s.Reads u k) (hu : isUnit u)
    (he : LineEnd e) (hengine : s.engines.get? b.name = some b.engine) :
    (Compile.line handle (sourceLine u k (b.callLine args) e)).runFrom s =
      (.error (.rejected .engineCall), s.learn u k) := by
  simp only [BlockEngine.isCallable, and_eq_true, not_eq_true'] at hargs
  obtain ⟨⟨⟨⟨⟨hwords, hclear⟩, hnone⟩, hmark⟩, happend⟩, hcreate⟩ := hargs
  have hsolid : Solid (b.callLine args) := by
    rw [BlockEngine.callLine_eq, callText_called, append_assoc]
    exact solid_append_name (callName_of_isCallName h.name) rfl
  have htrim := hsolid.trim_sourceLine (k := k) hu he
  have hhash : (b.callLine args).head? ≠ some '#' := by
    rw [callLine, callText_called]
    exact head?_append_name (callName_of_isCallName h.name) rfl
  have hdotted : (dottedLine k (sourceLine u k (b.callLine args) e)).runFrom (s.learn u k) =
      (.error (.rejected .engineCall), s.learn u k) := by
    have hline := engineLine_block (s := s.learn u k) h hapart hengine hwords k
    simp only [dottedLine, htrim, hmark, happend, hcreate, Bool.or_self, false_eq_true, if_false,
      runFrom_bind, runFrom_pure, hline]
  have hundeclared : Undeclared (sourceLine u k (b.callLine args) e) := by
    rw [callLine, callText_called] at hsolid hclear hnone ⊢
    exact undeclared_dotted (callName_of_isCallName h.name) hsolid hclear hnone hu he
  rw [line_eq_plainLine hu hr hs.block hs.verbatims hsolid hhash he (expand_clear hclear hu he)]
  refine hundeclared.plainLine_dotted (s := s.learn u k) ?_ hs.loops hs.defining
    (r := .error (.rejected .engineCall)) hdotted _
  rw [htrim, callLine, callText_called]
  simp

theorem isPrefixOf_engineText (h : b.Declarable)
    (hw : w ∈ ["for".toList, "def".toList, "import".toList]) (e : Text) :
    (w ++ [' ']).isPrefixOf (b.engineText ++ e) = false := by
  rw [← not_eq_true, isPrefixOf_iff_prefix]
  intro hstart
  have hspace : ' ' ∉ w := by
    simp only [mem_cons, not_mem_nil, or_false] at hw
    rcases hw with rfl | rfl | rfl <;> decide
  have hname : b.name ++ ' ' :: ([] : Text) <+: b.engineText ++ e := by
    rw [BlockEngine.engineText_eq, append_assoc]
    exact prefix_append _ _
  have heq : b.name = w := eq_of_isPrefix (h.name_not_mem rfl) hspace hname hstart
  exact h.word (heq ▸ hw)

theorem line_declaresEngine (h : b.Declarable) (hs : s.Idle tags u)
    (hu : isUnit u) (he : LineEnd e) : (Compile.line handle (b.engineText ++ e)).runFrom s =
      (.ok (), { s with engines := s.engines.set b.name (Engine.ofFormat b.format) }) := by
  have hclear := h.clear
  simp only [isClear, and_eq_true, not_eq_true'] at hclear
  obtain ⟨⟨⟨⟨⟨hverbatim, hblock⟩, hsign⟩, hcompound⟩, _⟩, _⟩ := hclear
  have hcut : b.engineText = b.name ++ ((" = TemplateEngine('" ++ b.format ++ ['\'']) ++ [')']) := by
    simp [engineText]
  have hsolid : Solid b.engineText := by
    rw [hcut]
    exact solid_append_name (callName_of_isCallName h.name) rfl
  have hhash : b.engineText.head? ≠ some '#' := by
    rw [hcut]
    exact head?_append_name (callName_of_isCallName h.name) rfl
  have hline : b.engineText ++ e = sourceLine u 0 b.engineText e := by simp [sourceLine]
  have htrim : (b.engineText ++ e).trim = b.engineText := by
    rw [hline]
    exact trim_append_solid (isBlank_of_mem_times hu) he.isBlank hsolid
  have hloop : isLoopStart b.engineText = false := by
    have := isPrefixOf_engineText h (w := "for".toList) (by simp) []
    rwa [append_nil] at this
  have hmethod : isMethodStart (b.engineText ++ e) = false :=
    isPrefixOf_engineText h (w := "def".toList) (by simp) e
  have himport : "import ".toList.isPrefixOf (b.engineText ++ e) = false :=
    isPrefixOf_engineText h (w := "import".toList) (by simp) e
  have hengine : (b.engineText ++ e).has "TemplateEngine" := by
    rw [has_iff_isInfix]
    exact ⟨b.name ++ " = ", "('" ++ b.format ++ "')" ++ e, by
      simp [engineText]⟩
  have hdef := Session.isDefining_eq_false hs.defining
  have hcompound' : Assignment.isCompound (b.engineText ++ e) = false := by
    rw [hline]
    exact isCompound_sourceLine hcompound hu he
  rw [hline, line_eq_plainLine hu (hs.reads (Nat.zero_le _)) hs.block hs.verbatims hsolid hhash he
    (expand_clear h.clear hu he), ← hline]
  change (plainLine handle 0 _ (b.engineText ++ e)).runFrom s = _
  simp only [plainLine, runFrom_bind, runFrom_get, htrim,
    declaresVerbatim_of_has hverbatim hblock, hs.loops, hdef, hloop, hmethod, declarationLine, hsign,
    hcompound', himport, hengine, declareEngine_run h, isEmpty_nil, Bool.not_true, Bool.not_false,
    Bool.or_self, Bool.and_false, false_eq_true, if_false, if_true, runFrom_pure]

theorem line_declaresMethod (h : b.Declarable) (hs : s.Idle tags u)
    (hu : isUnit u) (he : LineEnd e) {g : Engine} (hengine : s.engines.get? b.name = some g) :
    (Compile.line handle (b.methodText ++ e)).runFrom s = (.ok (), { s with
      engines := s.engines.set b.name (g.addMethod b.method b.opening (some b.closing)) }) := by
  have hcut : b.methodText = b.name ++ '.' :: (b.method ++ " = create('" ++ b.opening ++
      "', '" ++ b.closing ++ "')") := by
    simp [methodText, called]
  have hsolid : Solid b.methodText := by
    have hlast : b.methodText = b.name ++ (('.' :: b.method ++ " = create('" ++ b.opening ++
        "', '" ++ b.closing ++ ['\'']) ++ [')']) := by
      simp [methodText, called]
    rw [hlast]
    exact solid_append_name (callName_of_isCallName h.name) rfl
  have hhash : b.methodText.head? ≠ some '#' := by
    rw [hcut]
    exact head?_append_name (callName_of_isCallName h.name) rfl
  have hline : b.methodText ++ e = sourceLine u 0 b.methodText e := by simp [sourceLine]
  have htrim := hsolid.trim_sourceLine (k := 0) hu he
  have hundeclared : Undeclared (sourceLine u 0 b.methodText e) := by
    have hclear := h.methodClear
    have hnone := h.methodEngine
    rw [hcut] at hsolid hclear hnone ⊢
    exact undeclared_dotted (callName_of_isCallName h.name) hsolid hclear hnone hu he
  have hcreate : b.methodText.has "create(" := by
    rw [has_iff_isInfix]
    exact ⟨b.called ++ " = ", '\'' :: b.opening ++ "', '" ++ b.closing ++ "')", by
      simp [methodText]⟩
  have hdotted : (dottedLine 0 (sourceLine u 0 b.methodText e)).runFrom s = (.ok none, { s with
      engines := s.engines.set b.name (g.addMethod b.method b.opening (some b.closing)) }) := by
    simp only [dottedLine, htrim, h.methodMark, hcreate, Bool.or_true, false_eq_true, if_false, if_true,
      runFrom_bind, runFrom_pure, defineEngineMethod_run h hengine]
  rw [hline, line_eq_plainLine hu (hs.reads (Nat.zero_le _)) hs.block hs.verbatims hsolid hhash he
    (expand_clear h.methodClear hu he)]
  refine hundeclared.plainLine_dotted (s := s) ?_ hs.loops hs.defining (r := .ok ()) hdotted _
  rw [htrim, hcut]
  simp

end Compile
end OutlineMarkup

