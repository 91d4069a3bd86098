import OutlineMarkup.Proofs.Actions
import OutlineMarkup.Proofs.Spelling

/-!
# Pages

The part of a session that markup changes is its page: the level, the open elements and the markup
written. Entering a line and writing markup are functions of the page alone, given the grammar and
the unit of indentation; the module says what they do to it.
-/

namespace OutlineMarkup
open Action List Markup Indentation Session
variable {s : Session} {name : Text} {m : Markup Text} {tags : TagTable}

structure Page where
  level : Int := 0
  fresh : Bool := true
  elements : List (Option Text) := []
  /-- Last character first. -/
  written : Text := []
  lastElement : Option Text := none

namespace Session

def page (s : Session) : Page :=
  ⟨s.indentation.level, s.indentation.fresh, s.elements, s.written, s.lastElement⟩

def withPage (s : Session) (p : Page) : Session :=
  { s with
    indentation := { s.indentation with level := p.level, fresh := p.fresh }
    elements := p.elements
    written := p.written
    lastElement := p.lastElement }

@[simp] theorem page_withPage (s : Session) (p : Page) : (s.withPage p).page = p := rfl

theorem isDefining_eq_false (h : s.defining = none) : s.isDefining = false := by
  rw [isDefining, h]
  rfl

theorem isDefining_eq_true (h : s.defining = some name) : s.isDefining := by
  rw [isDefining, h]
  rfl

@[simp] theorem withPage_page (s : Session) : s.withPage s.page = s := rfl

@[simp] theorem withPage_withPage (s : Session) (p q : Page) : (s.withPage p).withPage q = s.withPage q := rfl

@[simp] theorem withPage_tags (s : Session) (p : Page) : (s.withPage p).tags = s.tags := rfl

@[simp] theorem withPage_defining (s : Session) (p : Page) : (s.withPage p).defining = s.defining := rfl

@[simp] theorem withPage_unit (s : Session) (p : Page) :
    (s.withPage p).indentation.unit = s.indentation.unit := rfl

end Session

namespace Markup

def opening : Markup Text → Text
  | element name attributes _ => (definition name attributes).tags.1
  | text content => content ++ ['\n']

def ending (space : Text) : Markup Text → Option Text
  | element name attributes _ => some (space ++ (definition name attributes).tags.2)
  | text _ => none

def check (tags : TagTable) : Markup Text → Except Fault Unit
  | element name attributes _ => Compile.checkElement tags (definition name attributes)
  | text _ => .ok ()

theorem backslash_not_mem_opening (hm : m.isPlain) : '\\' ∉ m.opening := by
  cases m with
  | text t =>
    have ht : '\\' ∉ t := not_mem_of_all (all_eq_true.mp hm) (by decide)
    simp [opening, ht]
  | element name attributes colon =>
    have hname : '\\' ∉ name := (callName_of_isWritable (isWritable_of_isPlain hm)).not_mem (by decide)
    have hitems : '\\' ∉ Text.join " " ((attributes.getD []).map attributeText) := by
      intro hc
      rcases Text.mem_join hc with hc | ⟨p, hp, hcp⟩
      · exact absurd hc (by decide)
      · cases attributes with
        | none => simp at hp
        | some attributes => exact ((attributes_calm (isWritable_of_isPlain hm) p hp).signs _ hcp).2.2 rfl
    by_cases hempty : (Text.join " " ((attributes.getD []).map attributeText)).isEmpty
    · simp only [opening, Definition.tags, definition, hempty, if_true]
      simp [hname]
    · simp only [opening, Definition.tags, definition, hempty]
      simpa [hname] using hitems

theorem backslash_not_mem_ending {space tag : Text} (hm : m.isPlain)
    (hs : '\\' ∉ space) (h : m.ending space = some tag) : '\\' ∉ tag := by
  cases m with
  | text t => cases h
  | element name attributes colon =>
    have hname : '\\' ∉ name := (callName_of_isWritable (isWritable_of_isPlain hm)).not_mem (by decide)
    cases h
    simp [Definition.tags, definition, hname, hs]

end Markup

def endTag (unit : Text) (depth : Nat) (name : Text) : Text :=
  unit.times depth ++ "</" ++ name ++ ['>']

namespace Page

/-- The markup after an end tag has been dealt with. -/
def closed (tags : TagTable) (unit : Text) (p : Page) (tag : Text) : Text :=
  match p.lastElement.bind tags.rule? with
  | none => tag.reverse ++ p.written
  | some rule =>
    match rule.closing with
    | .single => p.written
    | .separate => tag.reverse ++ p.written
    | .normal =>
      if (endTag unit p.level.toNat (p.lastElement.getD [])).isPrefixOf tag
      then " />\n".toList.reverse ++ p.written.drop 2
      else tag.reverse ++ p.written

def pop (tags : TagTable) (unit : Text) (p : Page) : Page :=
  match p.elements with
  | [] => p
  | none :: rest => { p with elements := rest }
  | some tag :: rest => { p with elements := rest, written := p.closed tags unit tag }

def close (tags : TagTable) (unit : Text) (n : Nat) (p : Page) : Except Fault Page :=
  if n ≤ p.elements.length then .ok ((pop tags unit)^[n] p) else .error .outOfRange

def output (tags : TagTable) (unit : Text) (p : Page) : Text :=
  ((pop tags unit)^[p.elements.length] p).written.reverse

def closings (p : Page) (depth : Nat) : Except Fault Nat :=
  Indentation.closings { level := p.level, fresh := p.fresh } depth

def push (depth : Nat) (entry : Option Text) (p : Page) : Page :=
  { p with elements := entry :: p.elements, level := depth, fresh := false }

def enter (tags : TagTable) (unit : Text) (depth : Nat) (entry : Option Text) (p : Page) :
    Except Fault Page := do
  let p ← p.close tags unit (← p.closings depth)
  .ok (p.push depth entry)

def write (unit : Text) (depth : Nat) (m : Markup Text) (p : Page) : Page :=
  { p with
    lastElement := m.name?
    written := (unit.times depth ++ m.opening).reverse ++ p.written }

def put (tags : TagTable) (unit : Text) (depth : Nat) (m : Markup Text) (p : Page) :
    Except Fault Page := do
  m.check tags
  let p ← p.enter tags unit depth (m.ending (unit.times depth))
  .ok (p.write unit depth m)

/-- The latest element is one of the grammar, and no end tag holds a backslash. -/
structure Known (tags : TagTable) (p : Page) : Prop where
  last : ∀ e ∈ p.lastElement, e.isAlphanumeric = true ∧ (tags.rule? e).isSome = true
  entries : ∀ tag, some tag ∈ p.elements → '\\' ∉ tag

section Closing
variable {tags : TagTable} {unit : Text} {p : Page}

@[simp] theorem pop_elements : (p.pop tags unit).elements = p.elements.tail := by
  unfold pop
  split <;> simp_all

@[simp] theorem pop_level : (p.pop tags unit).level = p.level := by
  unfold pop
  split <;> rfl

@[simp] theorem pop_fresh : (p.pop tags unit).fresh = p.fresh := by
  unfold pop
  split <;> rfl

@[simp] theorem pop_lastElement : (p.pop tags unit).lastElement = p.lastElement := by
  unfold pop
  split <;> rfl

theorem Known.pop (hp : p.Known tags) : (p.pop tags unit).Known tags := by
  refine ⟨fun e he => hp.last e (by simpa using he), fun tag htag => hp.entries tag ?_⟩
  rw [pop_elements] at htag
  exact mem_of_mem_tail htag

@[simp] theorem pops_elements (n : Nat) : ((Page.pop tags unit)^[n] p).elements = p.elements.drop n := by
  induction n generalizing p with
  | zero => rfl
  | succ n ih => rw [Function.iterate_succ_apply, ih, pop_elements, drop_tail]

@[simp] theorem pops_level (n : Nat) : ((Page.pop tags unit)^[n] p).level = p.level := by
  induction n generalizing p with
  | zero => rfl
  | succ n ih => rw [Function.iterate_succ_apply, ih, pop_level]

@[simp] theorem pops_lastElement (n : Nat) : ((Page.pop tags unit)^[n] p).lastElement = p.lastElement := by
  induction n generalizing p with
  | zero => rfl
  | succ n ih => rw [Function.iterate_succ_apply, ih, pop_lastElement]

@[simp] theorem pops_fresh (n : Nat) : ((Page.pop tags unit)^[n] p).fresh = p.fresh := by
  induction n with
  | zero => rfl
  | succ n ih => rw [Function.iterate_succ_apply', pop_fresh, ih]

theorem Known.pops (hp : p.Known tags) (n : Nat) : ((Page.pop tags unit)^[n] p).Known tags := by
  induction n generalizing p with
  | zero => exact hp
  | succ n ih => exact ih hp.pop

theorem close_succ (n : Nat) : p.close tags unit (n + 1) =
      if p.elements = [] then .error .outOfRange else (p.pop tags unit).close tags unit n := by
  rcases hel : p.elements with _ | ⟨top, rest⟩
  · simp [close, hel]
  · simp [close, hel]

end Closing

/-! ### Entering lines -/

def room (p : Page) : Nat := if p.fresh then 0 else (p.level + 1).toNat

/-- Levels are not negative, and lines are placed from level zero on. -/
structure Regular (p : Page) : Prop where
  nonneg : 0 ≤ p.level
  fresh : p.fresh = true → p.level = 0

section Entering
variable {tags : TagTable} {unit : Text} {depth : Nat} {entry : Option Text} {m : Markup Text}
  {p q : Page}

@[simp] theorem room_push : (p.push depth entry).room = depth + 1 := by
  simp [room, push]

@[simp] theorem push_elements : (p.push depth entry).elements = entry :: p.elements := rfl

@[simp] theorem room_write : (p.write unit depth m).room = p.room := rfl

theorem closings_eq (hp : p.Regular) (hd : depth ≤ p.room) : p.closings depth = .ok (p.room - depth) := by
  have hlevel := hp.nonneg
  cases hf : p.fresh with
  | true =>
    obtain rfl : depth = 0 := by simpa [room, hf] using hd
    simp [closings, Indentation.closings, room, hf, hp.fresh hf]
  | false =>
    simp only [room, hf, Bool.false_eq_true, if_false] at hd ⊢
    simp only [closings, Indentation.closings, Bool.not_false, Bool.and_true, decide_eq_true_eq, hf]
    split
    · congr 1
      omega
    · rw [if_neg (by omega)]
      congr 1
      omega

theorem enter_eq (hp : p.Regular) (hd : depth ≤ p.room) : p.enter tags unit depth entry =
      if p.room - depth ≤ p.elements.length
      then .ok (((Page.pop tags unit)^[p.room - depth] p).push depth entry) else .error .outOfRange := by
  rw [enter, closings_eq hp hd]
  change p.close tags unit (p.room - depth) >>= _ = _
  rw [close]
  split <;> rfl

theorem regular_push : (p.push depth entry).Regular := ⟨by simp [push], by simp [push]⟩

theorem Regular.write (hp : p.Regular) : (p.write unit depth m).Regular := ⟨hp.nonneg, hp.fresh⟩

theorem enter_ok (h : p.enter tags unit depth entry = .ok q) :
    ∃ n, n ≤ p.elements.length ∧ q = ((Page.pop tags unit)^[n] p).push depth entry := by
  rw [enter] at h
  cases hn : p.closings depth with
  | error f =>
    rw [hn] at h
    cases h
  | ok n =>
    rw [hn] at h
    change p.close tags unit n >>= _ = _ at h
    rw [close] at h
    split at h
    · rename_i hle
      cases h
      exact ⟨n, hle, rfl⟩
    · cases h

theorem put_ok (h : p.put tags unit depth m = .ok q) :
    m.check tags = .ok () ∧ ∃ r, p.enter tags unit depth (m.ending (unit.times depth)) = .ok r ∧
      q = r.write unit depth m := by
  rw [put] at h
  cases hc : m.check tags with
  | error f =>
    rw [hc] at h
    cases h
  | ok _ =>
    rw [hc] at h
    cases hr : p.enter tags unit depth (m.ending (unit.times depth)) with
    | error f =>
      simp only [hr] at h
      cases h
    | ok r =>
      simp only [hr] at h
      cases h
      exact ⟨rfl, r, rfl, rfl⟩

theorem Known.enter (hp : p.Known tags) (he : ∀ tag, entry = some tag → '\\' ∉ tag)
    (h : p.enter tags unit depth entry = .ok q) : q.Known tags := by
  obtain ⟨n, _, rfl⟩ := enter_ok h
  refine ⟨(hp.pops n).last, fun tag htag => ?_⟩
  rcases mem_cons.mp htag with htag | htag
  · exact he tag htag.symm
  · exact (hp.pops n).entries tag htag

theorem rule_of_check (hm : m.check tags = .ok ()) : ∀ e ∈ m.name?, (tags.rule? e).isSome := by
  cases m with
  | text t => simp [name?]
  | element name attributes colon =>
    intro e he
    obtain rfl : name = e := by simpa [name?] using he
    simp only [check, Compile.checkElement, definition, TagTable.key?] at hm
    cases hown : Table.get? tags name with
    | some rule => simp [TagTable.rule?, hown]
    | none =>
      cases hstar : Table.get? tags "*" with
      | some rule => simp only [TagTable.rule?, hown, hstar, Option.isSome_some]
      | none =>
        simp only [Table.has, hown, hstar] at hm
        cases hm

theorem Known.put (hp : p.Known tags) (hu : Indents unit) (hm : m.isPlain)
    (h : p.put tags unit depth m = .ok q) : q.Known tags := by
  obtain ⟨hcheck, r, hr, rfl⟩ := put_ok h
  have hspace : '\\' ∉ unit.times depth := hu.not_mem_times rfl
  have hk := hp.enter (fun tag => backslash_not_mem_ending hm hspace) hr
  refine ⟨fun e he => ⟨?_, rule_of_check hcheck e he⟩, hk.entries⟩
  cases m with
  | text t => cases he
  | element name attributes colon =>
    cases he
    simp only [isPlain, isMadeOf, Bool.and_eq_true] at hm
    exact hm.1

end Entering
end Page

/-! ## What a grammar accepts -/

theorem forM_eq_ok_iff {α : Type} {l : List α} {f : α → Except Fault Unit} :
    l.forM f = .ok () ↔ ∀ a ∈ l, f a = .ok () := by
  induction l with
  | nil => exact ⟨fun _ _ h => absurd h not_mem_nil, fun _ => rfl⟩
  | cons a l ih =>
    rw [forM_eq_forM, forM_cons, ← forM_eq_forM, forall_mem_cons, ← ih]
    cases hf : f a with
    | error e => exact ⟨fun h => (nomatch h), fun h => (nomatch h.1)⟩
    | ok _ => exact ⟨fun h => ⟨rfl, h⟩, fun h => h.2⟩

theorem TagTable.get?_of_rule? {rule : TagRule} (h : tags.rule? name = some rule) :
    ∃ key, tags.key? name = some key ∧ Table.get? tags key = some rule := by
  rw [rule?] at h
  cases hown : Table.get? tags name with
  | some own =>
    simp only [hown] at h
    refine ⟨name, ?_, hown.trans h⟩
    simp [key?, Table.has, hown]
  | none =>
    simp only [hown] at h
    refine ⟨"*", ?_, h⟩
    simp only [key?, Table.has, hown, h]
    rfl

theorem Markup.before_attributeText {attributes : Option (List (Text × Text))}
    {colon : Bool} (hp : (element name attributes colon).isPlain) {a : Text × Text}
    (ha : a ∈ attributes.getD []) : (attributeText a).before "=" = a.1 := by
  simp only [isPlain, isMadeOf, Bool.and_eq_true, all_eq_true] at hp
  have hall := ((isAlphanumeric_iff a.1).mp (hp.2 a ha).1).2
  rw [Attributes.attributeText_eq]
  exact Text.before_append_cons (not_mem_of_all hall (by decide))

theorem Markup.check_eq_ok_iff (hp : m.isPlain) : m.check tags = .ok () ↔ m.isAllowed tags := by
  cases m with
  | text t => exact ⟨fun _ => rfl, fun _ => rfl⟩
  | element name attributes colon =>
    cases hrule : tags.rule? name with
    | none =>
      have hunknown : (element name attributes colon).check tags ≠ .ok () := fun hc => by
        have hsome := Page.rule_of_check hc name rfl
        simp [hrule] at hsome
      simp [isAllowed, hrule, hunknown]
    | some rule =>
      obtain ⟨key, hkey, hget⟩ := TagTable.get?_of_rule? hrule
      simp only [isAllowed, hrule]
      simp only [check, definition, Compile.checkElement, hkey, hget, Option.bind_some]
      cases hallowed : rule.attributes with
      | none => exact ⟨fun _ => rfl, fun _ => rfl⟩
      | some allowed =>
        rw [forM_eq_ok_iff, forall_mem_map, all_eq_true]
        refine forall₂_congr fun a hmem => ?_
        rw [before_attributeText hp hmem]
        split <;> simp_all

theorem Markup.check_of_isAllowed (hp : m.isPlain) (ha : m.isAllowed tags) : m.check tags = .ok () :=
  (check_eq_ok_iff hp).mpr ha

/-! ## Actions on the page -/

/-- An action does to the page what is said of it, and changes nothing else if it succeeds. -/
def Follows (r : Except Fault Unit × Session) (s : Session) : Except Fault Page → Prop
  | .ok p => r = (.ok (), s.withPage p)
  | .error f => r.1 = .error f

theorem Follows.of_withPage {r : Except Fault Unit × Session} {p : Page}
    {q : Except Fault Page} (h : Follows r (s.withPage p) q) : Follows r s q := by
  cases q <;> exact h

theorem Follows.bind {x : Compile Unit} {f : Unit → Compile Unit}
    {a : Except Fault Page} {b : Page → Except Fault Page} (hx : Follows (x.runFrom s) s a)
    (hf : ∀ p, a = .ok p → Follows ((f ()).runFrom (s.withPage p)) s (b p)) :
    Follows ((x >>= f).runFrom s) s (a >>= b) := by
  rw [runFrom_bind]
  cases a with
  | error e =>
    rcases hrun : x.runFrom s with ⟨r, t⟩
    rw [hrun] at hx
    obtain rfl : r = .error e := hx
    rfl
  | ok p =>
    have hrun : x.runFrom s = (.ok (), s.withPage p) := hx
    rw [hrun]
    exact hf p rfl

/-- The unit is known, or the level is zero and the depth too. -/
def Session.KnowsUnit (s : Session) (unit : Text) (depth : Nat) : Prop :=
  s.indentation.unit = some unit ∨ (s.indentation.level = 0 ∧ depth = 0)

namespace Compile
variable {s : Session} {u t e rest : Text} {depth : Nat}

theorem unescapeDollars_eq_self (h : '\\' ∉ t) : unescapeDollars t = t :=
  Text.replace_eq_self_of_not_mem (c := '\\') (by simp) h _

theorem write_run (h : '\\' ∉ t) :
    (write t).runFrom s = (.ok (), { s with written := t.reverse ++ s.written }) := by
  rw [write, runFrom_modify, unescapeDollars_eq_self h]

theorem blanks_level (hk : s.KnowsUnit u depth) :
    s.indentation.blanks s.indentation.level = .ok (u.times s.indentation.level.toNat) := by
  rcases hk with hu | ⟨hl, _⟩
  · by_cases hl : s.indentation.level = 0
    · simp [Indentation.blanks, hl]
    · simp [Indentation.blanks, hl, hu]
  · simp [Indentation.blanks, hl]

variable {c : Char} {t : Indentation}

theorem isSpecial_eq_false_of_class {p : Char → Bool} (hc : p c)
    (hp : ∀ d ∈ ['.', '^', '$', '*', '+', '?', '\x7b', '[', ']', '\\', '|', '(', ')', '\x7d'],
      p d = false) : Pattern.isSpecial c = false :=
  eq_false_of_class (by simp [Pattern.isSpecial, or_assoc]) hc hp

theorem isLiteral_endTag {n : Nat} (hu : Indents u) (he : e.isAlphanumeric) :
    Pattern.isLiteral (endTag u n e) := by
  have hname : ∀ c ∈ e, Pattern.isSpecial c = false := fun c hc =>
    isSpecial_eq_false_of_class (((isAlphanumeric_iff e).mp he).2 c hc) (by decide)
  have hspace : ∀ c ∈ u.times n, Pattern.isSpecial c = false := fun c hc =>
    isSpecial_eq_false_of_class (hu.blank_times c hc) (by decide)
  rw [Pattern.isLiteral, Bool.not_eq_true', any_eq_false]
  intro c hc
  rw [Bool.not_eq_true]
  simp only [endTag, mem_append, mem_singleton] at hc
  rcases hc with ((hc | hc) | hc) | rfl
  · exact hspace c hc
  · have hangle : ∀ d ∈ "</".toList, Pattern.isSpecial d = false := by decide
    exact hangle c hc
  · exact hname c hc
  · rfl

theorem endsElement_run (hk : s.KnowsUnit u depth) (hu : Indents u) (he : e.isAlphanumeric) (tag : Text) :
    (endsElement e tag).runFrom s = (.ok ((endTag u s.indentation.level.toNat e).isPrefixOf tag), s) := by
  have hliteral := isLiteral_endTag (n := s.indentation.level.toNat) hu he
  simp only [endTag] at hliteral
  simp only [endsElement, runFrom_bind, runFrom_get, runFrom_liftM,
    blanks_level hk, hliteral, if_true, runFrom_pure, endTag]

theorem closeLast_run_nil (h : s.elements = []) : closeLast.runFrom s = (.error .outOfRange, s) := by
  simp [closeLast, runFrom_bind, h]

theorem closeLast_run (hk : s.KnowsUnit u depth) (hu : Indents u)
    (hs : s.page.Known s.tags) (hne : s.elements ≠ []) :
    closeLast.runFrom s = (.ok (), s.withPage (s.page.pop s.tags u)) := by
  rcases hel : s.elements with _ | ⟨_ | tag, rest⟩
  · contradiction
  · simp [closeLast, runFrom_bind, hel, Page.pop, withPage, page]
  · have hp : s.page.pop s.tags u =
        { s.page with elements := rest, written := s.page.closed s.tags u tag } := by
      simp [Page.pop, page, hel]
    rw [hp]
    have htag : '\\' ∉ tag := hs.entries tag (by simp [page, hel])
    cases hlast : s.lastElement with
    | none =>
      simp [closeLast, runFrom_bind, hel, hlast, write_run htag, Page.closed, withPage, page]
    | some e =>
      obtain ⟨hname, hrule⟩ := hs.last e (by simp [page, hlast])
      obtain ⟨rule, hrule⟩ := Option.isSome_iff_exists.mp hrule
      cases hclosing : rule.closing with
      | single =>
        simp [closeLast, runFrom_bind, hel, hlast, hrule, hclosing, Page.closed, withPage, page]
      | separate =>
        simp [closeLast, runFrom_bind, hel, hlast, hrule, hclosing, write_run htag,
          Page.closed, withPage, page]
      | normal =>
        have hends := endsElement_run (s := { s with elements := rest }) hk hu hname tag
        simp only [hlast] at hends
        simp only [closeLast, runFrom_bind, runFrom_get, hel, hlast, runFrom_set, hrule, hclosing, hends]
        split
        · rename_i hpre
          simp [overwrite, runFrom_modify, unescapeDollars_eq_self, keptUpTo, Page.closed,
            withPage, page, hlast, hrule, hclosing, hpre]
        · rename_i hpre
          simp [write_run htag, Page.closed, withPage, page, hlast, hrule, hclosing, hpre]

/-! ### Depths -/

theorem leading_times (hu : Indents u) (hc : rest.head? = some c) (hb : Text.isBlank c = false) (n : Nat) :
    leading (u.times n ++ rest) = u.times n := by
  obtain ⟨r, rfl⟩ := head?_eq_some_iff.mp hc
  rw [leading, takeWhile_append_of_pos (hu.blank_times)]
  simp [hb]

theorem depth_zero (hc : rest.head? = some c)
    (hb : Text.isBlank c = false) : t.depth rest = .ok (0, t) := by
  obtain ⟨r, rfl⟩ := head?_eq_some_iff.mp hc
  have htab : c ≠ '\t' := by
    rintro rfl
    exact Bool.noConfusion hb
  have hspace : c ≠ ' ' := by
    rintro rfl
    exact Bool.noConfusion hb
  simp [depth, htab, hspace]

theorem depth_succ (hu : Indents u) (hc : rest.head? = some c) (hb : Text.isBlank c = false) :
    t.depth (u.times (depth + 1) ++ rest) = match t.unit with
      | none => .ok (1, { t with unit := some (u.times (depth + 1)) })
      | some v => .ok ((depth + 1) * u.length / v.length, t) := by
  have hlead := leading_times hu hc hb (depth + 1)
  obtain ⟨d, v, rfl⟩ := exists_cons_of_ne_nil hu.ne_nil
  have hline : Text.times (d :: v) (depth + 1) ++ rest =
      d :: (v ++ (Text.times (d :: v) depth ++ rest)) := by simp [Text.times_succ]
  have hd : (d == '\t' || d == ' ') := by
    rcases hu.head with hd | hd <;> cases hd <;> rfl
  rw [hline] at hlead ⊢
  cases hunit : t.unit with
  | none | some w => simp [Indentation.depth, hd, hlead, hunit]

theorem depth_known (hu : Indents u)
    (hk : t.unit = some u ∨ depth = 0) (hc : rest.head? = some c) (hb : Text.isBlank c = false) :
    t.depth (u.times depth ++ rest) = .ok (depth, t) := by
  cases depth with
  | zero => simpa using depth_zero hc hb
  | succ n =>
    have hunit : t.unit = some u := hk.resolve_right (by omega)
    have hpos : 0 < u.length := length_pos_of_ne_nil hu.ne_nil
    rw [depth_succ hu hc hb, hunit]
    simp [Nat.mul_div_cancel _ hpos]

theorem blanks_run (hk : s.indentation.unit = some u ∨ depth = 0) :
    (blanks depth).runFrom s = (.ok (u.times depth), s) := by
  have hblanks : s.indentation.blanks depth = .ok (u.times depth) := by
    rcases hk with hunit | rfl
    · by_cases hd : depth = 0
      · simp [Indentation.blanks, hd]
      · simp [Indentation.blanks, hd, hunit]
    · simp [Indentation.blanks]
  simp [blanks, runFrom_bind, hblanks]

theorem depthOf_bar (hk : s.indentation.unit = some u ∨ depth = 0) (hu : Indents u) :
    (depthOf (u.times depth ++ ['|'])).runFrom s = (.ok depth, s) := by
  have hdepth : s.indentation.depth (u.times depth ++ ['|']) = .ok (depth, s.indentation) :=
    depth_known hu hk rfl rfl
  rw [depthOf, runFrom_bind_ok (runFrom_get s), hdepth]
  rfl

/-! ### Entering a line -/

theorem closeTimes_run (hk : s.KnowsUnit u depth) (hu : Indents u) (hs : s.page.Known s.tags) (n : Nat) :
    Follows ((times closeLast n).runFrom s) s (s.page.close s.tags u n) := by
  induction n generalizing s with
  | zero => rfl
  | succ n ih =>
    rw [Page.close_succ]
    by_cases hel : s.elements = []
    · have hpage : s.page.elements = [] := hel
      rw [if_pos hpage, times]
      change (runFrom _ s).1 = _
      rw [runFrom_bind_error (closeLast_run_nil hel)]
    · have hpage : s.page.elements ≠ [] := hel
      rw [if_neg hpage, runFrom_times_succ_ok (closeLast_run hk hu hs hel)]
      have hk' : (s.withPage (s.page.pop s.tags u)).KnowsUnit u depth := by
        rcases hk with h | ⟨hl, hd⟩
        · exact .inl h
        · exact .inr ⟨Page.pop_level.trans hl, hd⟩
      exact Follows.of_withPage (ih hk' hs.pop)

theorem enter_run (hd : s.defining = none) (hk : s.KnowsUnit u depth) (hu : Indents u)
    (hs : s.page.Known s.tags) (entry : Option Text) :
    Follows ((enter depth (some entry)).runFrom s) s (s.page.enter s.tags u depth entry) := by
  have hdef := isDefining_eq_false hd
  have hunit : s.indentation.unit = some u ∨ depth = 0 := hk.imp_right And.right
  have hclosings : s.indentation.closings depth = s.page.closings depth := rfl
  cases hn : s.page.closings depth with
  | error f =>
    have hpage : s.page.enter s.tags u depth entry = .error f := by rw [Page.enter, hn]; rfl
    rw [hpage]
    simp [Follows, enter, runFrom_bind, hdef, blanks_run hunit, depthOf_bar hunit hu, hclosings, hn]
  | ok n =>
    have hrun : (enter depth (some entry)).runFrom s = (do
        times closeLast n
        push entry
        modify fun s : Session => { s with indentation := s.indentation.place depth }
        : Compile Unit).runFrom s := by
      simp [enter, runFrom_bind, hdef, blanks_run hunit, depthOf_bar hunit hu, hclosings, hn]
    have hpage : s.page.enter s.tags u depth entry =
        s.page.close s.tags u n >>= fun p => .ok (p.push depth entry) := by
      rw [Page.enter, hn]
      rfl
    rw [hrun, hpage]
    exact Follows.bind (closeTimes_run hk hu hs n) fun p _ => rfl

theorem writeLine_run (hd : s.defining = none) (hk : s.KnowsUnit u depth)
    (hu : Indents u) (hs : s.page.Known s.tags) (hm : m.isPlain) :
    Follows ((writeLine depth (u.times depth) m.opening (m.ending (u.times depth)) m.name?).runFrom s)
      s (do
        let p ← s.page.enter s.tags u depth (m.ending (u.times depth))
        .ok (p.write u depth m)) := by
  have hopening : '\\' ∉ u.times depth ++ m.opening := by
    simp [hu.not_mem_times (c := '\\') rfl, backslash_not_mem_opening hm]
  refine Follows.bind (enter_run hd hk hu hs _) fun p _ => ?_
  simp [Follows, runFrom_bind, write_run hopening, Page.write, withPage]

end Compile
end OutlineMarkup
