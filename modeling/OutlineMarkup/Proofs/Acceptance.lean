import OutlineMarkup.Proofs.Documents

/-!
# Acceptance

A line of markup is refused if the grammar does not know its tag or one of its attributes, or if it
is more than one level deeper than the line before it. Compilation stops at the first such line and
reports its number, and the page is as the lines before left it.
-/

namespace OutlineMarkup
open List Compile Markup Action Page Session

/-- Why a line is refused behind lines that leave room for a number of levels. -/
inductive Refused (tags : TagTable) (room : Nat) : Nat × Markup Text → Rejection → Prop
  | unknownTag {k : Nat} {name : Text} {attributes : Option (List (Text × Text))} {colon : Bool}
      (unknown : tags.rule? name = none) :
      Refused tags room (k, .element name attributes colon) (.unknownTag name)
  | forbiddenAttribute {k : Nat} {name key : Text} {attributes : List (Text × Text)} {colon : Bool}
      {rule : TagRule} {allowed : List Text} {a : Text × Text} (listed : tags.key? name = some key)
      (known : tags.rule? name = some rule) (limited : rule.attributes = some allowed)
      (mem : a ∈ attributes) (forbidden : a.1 ∉ allowed) :
      Refused tags room (k, .element name (some attributes) colon) (.forbiddenAttribute a.1 key)
  | tooDeep {k : Nat} {m : Markup Text} (deep : room < k) : Refused tags room (k, m) .indentation

namespace Outline

def room (o : Outline) : Nat := ((o.depths.getLast?).map (· + 1)).getD 0

def Accepted (tags : TagTable) (o : Outline) : Prop :=
  ∀ (before : Outline) (x : Nat × Markup Text) (after : Outline), o = before ++ x :: after →
    ∀ why, ¬ Refused tags before.room x why

/-- The first line that is indented stands at depth one. -/
def StartsAtOne (o : Outline) : Prop := ∀ k ∈ o.depths.find? (0 < ·), k = 1

instance (o : Outline) : Decidable o.StartsAtOne :=
  inferInstanceAs (Decidable (∀ k ∈ o.depths.find? (0 < ·), k = 1))

end Outline

/-! ## Refused lines -/

section Refusal
variable {tags : TagTable} {room k : Nat} {m : Markup Text} {name : Text}

theorem forM_eq_error {α : Type} {l : List α} {f : α → Except Fault Unit} {e : Fault}
    (h : l.forM f = .error e) : ∃ a ∈ l, f a = .error e := by
  induction l with
  | nil => cases h
  | cons a l ih =>
    rw [forM_eq_forM, forM_cons, ← forM_eq_forM] at h
    cases hf : f a with
    | error e' =>
      rw [hf] at h
      cases h
      exact ⟨a, mem_cons_self, hf⟩
    | ok _ =>
      rw [hf] at h
      obtain ⟨b, hb, he⟩ := ih h
      exact ⟨b, .tail _ hb, he⟩

theorem TagTable.key?_eq_none_iff : tags.key? name = none ↔ tags.rule? name = none := by
  rw [key?, rule?, Table.has, Table.has]
  cases Table.get? tags name with
  | some rule => simp
  | none => cases Table.get? tags "*" <;> simp

theorem TagTable.rule?_of_key? {key : Text} (h : tags.key? name = some key) :
    tags.rule? name = Table.get? tags key := by
  cases hrule : tags.rule? name with
  | none =>
    rw [key?_eq_none_iff.mpr hrule] at h
    cases h
  | some rule =>
    obtain ⟨key', hkey, hget⟩ := get?_of_rule? hrule
    rw [h] at hkey
    cases hkey
    exact hget.symm

theorem Refused.of_check (room k : Nat) (hm : m.isPlain) {f : Fault}
    (h : m.check tags = .error f) : ∃ why, f = .rejected why ∧ Refused tags room (k, m) why := by
  cases m with
  | text t => cases h
  | element name attributes colon =>
    simp only [check, checkElement, definition] at h
    cases hkey : tags.key? name with
    | none =>
      simp only [hkey] at h
      cases h
      exact ⟨_, rfl, .unknownTag (TagTable.key?_eq_none_iff.mp hkey)⟩
    | some key =>
      simp only [hkey] at h
      cases hallowed : (Table.get? tags key).bind (·.attributes) with
      | none =>
        simp only [hallowed] at h
        cases h
      | some allowed =>
        simp only [hallowed] at h
        obtain ⟨rule, hget, hlimited⟩ := Option.bind_eq_some_iff.mp hallowed
        obtain ⟨p, hp, he⟩ := forM_eq_error h
        obtain ⟨a, ha, rfl⟩ := mem_map.mp hp
        rw [before_attributeText hm ha] at he
        split at he
        · cases he
        · rename_i hnot
          cases he
          refine ⟨_, rfl, ?_⟩
          cases attributes with
          | none => cases ha
          | some attributes =>
            exact .forbiddenAttribute hkey ((TagTable.rule?_of_key? hkey).trans hget) hlimited ha
              (by simpa using hnot)

theorem exists_refused_iff : (∃ why, Refused tags room (k, m) why) ↔ m.isAllowed tags = false ∨ room < k := by
  constructor
  · rintro ⟨why, h⟩
    cases h with
    | unknownTag unknown => exact .inl (by simp [isAllowed, unknown])
    | forbiddenAttribute listed known limited mem forbidden =>
      refine .inl ?_
      simp only [isAllowed, known, limited, Option.getD_some, all_eq_false]
      exact ⟨_, mem, by simpa using forbidden⟩
    | tooDeep deep => exact .inr deep
  · rintro (h | h)
    · cases m with
      | text t => cases h
      | element name attributes colon =>
        simp only [isAllowed] at h
        cases hrule : tags.rule? name with
        | none => exact ⟨_, .unknownTag hrule⟩
        | some rule =>
          simp only [hrule] at h
          cases hallowed : rule.attributes with
          | none => simp [hallowed] at h
          | some allowed =>
            simp only [hallowed, all_eq_false] at h
            obtain ⟨a, ha, hnot⟩ := h
            obtain ⟨key, hkey, _⟩ := TagTable.get?_of_rule? hrule
            cases attributes with
            | none => cases ha
            | some attributes =>
              exact ⟨_, .forbiddenAttribute hkey hrule hallowed ha (by simpa using hnot)⟩
    · exact ⟨_, .tooDeep h⟩

end Refusal

namespace Outline
variable {tags : TagTable} {o : Outline}

theorem room_append_singleton (o : Outline) (x : Nat × Markup Text) : room (o ++ [x]) = x.1 + 1 := by
  simp [room, depths]

theorem roomAfter_trace (o : Outline) : o.trace.roomAfter 0 = o.room := by
  induction o using reverseRecOn with
  | nil => rfl
  | append_singleton o x _ =>
    rw [trace_append, room_append_singleton, Trace.roomAfter_append]
    rfl

theorem accepted_nil : Accepted tags [] := by
  intro before x after h
  exact absurd h.symm (by simp)

theorem accepted_append_singleton {x : Nat × Markup Text} :
    Accepted tags (o ++ [x]) ↔ Accepted tags o ∧ ∀ why, ¬ Refused tags o.room x why := by
  constructor
  · intro h
    refine ⟨fun before y after hsplit => ?_, h o x [] rfl⟩
    exact h before y (after ++ [x]) (by rw [hsplit]; simp)
  · rintro ⟨ho, hx⟩ before y after hsplit
    rcases eq_nil_or_concat' after with rfl | ⟨after, z, rfl⟩
    · obtain ⟨rfl, hxy⟩ := append_inj' hsplit rfl
      cases hxy
      exact hx
    · have hsplit' : o ++ [x] = (before ++ y :: after) ++ [z] := by simpa using hsplit
      obtain ⟨rfl, _⟩ := append_inj' hsplit' rfl
      exact ho before y after rfl

theorem accepted_iff : Accepted tags o ↔ o.isAllowed tags ∧ o.trace.Climbs 0 := by
  induction o using reverseRecOn with
  | nil => exact ⟨fun _ => ⟨rfl, trivial⟩, fun _ => accepted_nil⟩
  | append_singleton o x ih =>
    have hclimbs : Trace.Climbs (room o) (trace [x]) ↔ x.1 ≤ room o := ⟨fun h => h.1, fun h => ⟨h, trivial⟩⟩
    have hlast : (∀ why, ¬ Refused tags (room o) x why) ↔ x.2.isAllowed tags ∧ x.1 ≤ room o := by
      rw [← not_exists, exists_refused_iff (k := x.1) (m := x.2), not_or, Bool.not_eq_false, not_lt]
    rw [accepted_append_singleton, ih, hlast, trace_append, Trace.climbs_append, roomAfter_trace,
      hclimbs, isAllowed, isAllowed, all_append, Bool.and_eq_true, all_cons, all_nil, Bool.and_true]
    tauto

theorem exists_first_refused (h : ¬ Accepted tags o) :
    ∃ (before : Outline) (x : Nat × Markup Text) (after : Outline), o = before ++ x :: after ∧
      Accepted tags before ∧ ∃ why, Refused tags before.room x why := by
  induction o using reverseRecOn with
  | nil => exact absurd accepted_nil h
  | append_singleton o x ih =>
    by_cases ho : Accepted tags o
    · refine ⟨o, x, [], rfl, ho, ?_⟩
      by_contra hx
      exact h (accepted_append_singleton.mpr ⟨ho, not_exists.mp hx⟩)
    · obtain ⟨before, y, after, rfl, hbefore, hy⟩ := ih ho
      exact ⟨before, y, after ++ [x], by simp, hbefore, hy⟩

end Outline

/-! ## Handling lines -/

namespace Page
variable {p : Page} {k : Nat}

theorem fresh_of_room (h : 0 < p.room) : p.fresh = false := by
  cases hf : p.fresh with
  | false => rfl
  | true => simp [room, hf] at h

theorem closings_deep (hp : p.Regular) (hplaced : 0 < p.room) (hdeep : p.room < k) :
    p.closings k = .error (.rejected .indentation) := by
  have hf := fresh_of_room hplaced
  have hlevel := hp.nonneg
  simp only [room, hf, Bool.false_eq_true, if_false] at hdeep
  simp only [closings, Indentation.closings, hf, Bool.not_false, Bool.and_true, decide_eq_true_eq]
  rw [if_neg (by omega), if_pos (by omega)]

end Page

/-- A session without methods that reads the lines to come at their depths. -/
structure Session.Awaits (tags : TagTable) (u : Text) (o : Outline) (s : Session) : Prop where
  idle : s.Idle tags u
  balanced : s.page.Balanced
  methods : s.methods = []
  units : s.indentation.unit = some u ∨ s.indentation.unit = none ∧ o.StartsAtOne

namespace Session.Awaits
variable {tags : TagTable} {u : Text} {k : Nat} {m : Markup Text} {o : Outline} {s : Session}

theorem reads (hs : s.Awaits tags u ((k, m) :: o)) : s.Reads u k := by
  rcases hs.units with hunit | ⟨hunit, hone⟩
  · exact .inl hunit
  · refine .inr ⟨hunit, ?_⟩
    by_cases hk : k = 0
    · omega
    · exact (hone k (by simp [Outline.depths, Nat.pos_of_ne_zero hk])).le

theorem next (hs : s.Awaits tags u ((k, m) :: o)) {q : Page} (hq : q.Balanced) (hknown : q.Known s.tags)
    (hroom : q.room = k + 1) : ((s.learn u k).withPage q).Awaits tags u o := by
  refine ⟨hs.idle.learn_withPage hq.toRegular hknown hroom, hq, hs.methods, ?_⟩
  rcases learn_unit (s := s) (u := u) (k := k) with hunit | rfl
  · exact .inl hunit
  · rcases hs.units with hunit | ⟨hunit, hone⟩
    · exact .inl hunit
    · exact .inr ⟨hunit, fun d hd => hone d (by simpa [Outline.depths] using hd)⟩

end Session.Awaits

/-- A line that stands for markup at a depth. -/
def SpelledAt (u : Text) (x : Nat × Markup Text) (l : Text) : Prop :=
  ∃ tag e, Spells tag x.2 ∧ LineEnd e ∧ l = sourceLine u x.1 tag e

theorem spelledAt_lines {u : Text} {o : Outline} {xs : List Text} (hp : o.isPlain)
    (hxs : Forall₂ IsEnded (o.lines u) xs) : Forall₂ (SpelledAt u) o xs := by
  rw [Outline.lines, forall₂_map_left_iff] at hxs
  refine (forall₂_mem hxs).imp fun x l hl => ?_
  obtain ⟨hx, _, e, he, rfl⟩ := hl
  have hplain := all_eq_true.mp hp x hx
  rw [Bool.and_eq_true] at hplain
  exact ⟨x.2.written, e, spells_written hplain.1 hplain.2, he, append_assoc _ _ _⟩

namespace Compile
variable {handle : Handler} {tags : TagTable} {u tag e : Text} {k : Nat} {m : Markup Text}
  {o : Outline} {s : Session}

theorem line_accepted (handle : Handler) (hs : s.Awaits tags u ((k, m) :: o)) (hm : m.isPlain)
    (htag : Spells tag m) (hu : isUnit u) (he : LineEnd e) (ha : m.isAllowed tags) (hk : k ≤ s.page.room) :
    ∃ q, (line handle (sourceLine u k tag e)).runFrom s = (.ok (), (s.learn u k).withPage q) ∧
      ((s.learn u k).withPage q).Awaits tags u o ∧ s.page.step tags u (k, some m) = .ok q := by
  have hrun := line_markup handle htag hm hu he hs.idle hs.reads (fun name _ => by rw [hs.methods]; rfl)
  have hput := hs.balanced.put_eq u ((check_eq_ok_iff hm).mpr ha) hk
  generalize ((s.page.closeTo tags u k).push k (m.ending (u.times k))).write u k m = q at hput
  have hstep : s.page.step tags u (k, some m) = .ok q := hput
  have hknown : q.Known s.tags := hs.idle.known.put (indents_of_isUnit hu) hm (by rw [hs.idle.table]; exact hput)
  rw [hput] at hrun
  exact ⟨q, hrun, hs.next (hs.balanced.step hk hstep) hknown (step_ok hstep).2, hstep⟩

theorem enter_deep (hd : s.defining = none) (hunit : s.indentation.unit = some u) (hu : isUnit u)
    (hregular : s.page.Regular) (hplaced : 0 < s.page.room) (hdeep : s.page.room < k) (entry : Option Text) :
    (enter k (some entry)).runFrom s = (.error (.rejected .indentation), s) := by
  have hdef := isDefining_eq_false hd
  have hclosings : s.indentation.closings k = s.page.closings k := rfl
  simp [enter, runFrom_bind, hdef, blanks_run (.inl hunit), depthOf_bar (.inl hunit) (indents_of_isUnit hu), hclosings, closings_deep hregular hplaced hdeep]

theorem line_refused (handle : Handler) (hs : s.Awaits tags u ((k, m) :: o)) (hm : m.isPlain)
    (hspells : Spells tag m) (hu : isUnit u) (he : LineEnd e)
    (hplaced : 0 < s.page.room ∨ k = 0) (h : m.isAllowed tags = false ∨ s.page.room < k) :
    ∃ why, Refused tags s.page.room (k, m) why ∧
      (line handle (sourceLine u k tag e)).runFrom s = (.error (.rejected why), s.learn u k) := by
  have hwrite : m.isAllowed tags → ∀ opening closing element,
      (writeLine k (u.times k) opening closing element).runFrom (s.learn u k) =
        (.error (.rejected .indentation), s.learn u k) := by
    intro ha opening closing element
    have hdeep : s.page.room < k := h.resolve_left (by simp [ha])
    have hunit := (Session.learn_unit (s := s) (u := u) (k := k)).resolve_right (by omega)
    rw [writeLine, runFrom_bind_error]
    exact enter_deep (s := s.learn u k) hs.idle.defining hunit hu hs.idle.regular
      (hplaced.resolve_right (by omega)) hdeep closing
  cases m with
  | text t =>
    refine ⟨.indentation, .tooDeep (h.resolve_left (by simp [isAllowed])), ?_⟩
    rw [line_eq_markupLine hspells.1 hu he hs.idle hs.reads, markupLine_text hspells]
    exact hwrite rfl _ _ _
  | element name attributes colon =>
    have hnames : Names _ (definition name attributes) := hspells
    have hfree : (s.learn u k).methods.get? name = none := by
      change s.methods.get? name = none
      rw [hs.methods]
      rfl
    rw [line_eq_markupLine hnames.calm hu he hs.idle hs.reads, markupLine_definition hnames,
      definitionLine_element hfree]
    have htags : (s.learn u k).tags = tags := hs.idle.table
    rw [htags]
    cases hc : checkElement tags (definition name attributes) with
    | error f =>
      obtain ⟨why, rfl, hwhy⟩ := Refused.of_check s.page.room k hm hc
      exact ⟨why, hwhy, rfl⟩
    | ok _ =>
      have ha := (check_eq_ok_iff hm).mp hc
      refine ⟨.indentation, .tooDeep (h.resolve_left (by simp [ha])), ?_⟩
      exact hwrite ha _ _ _

theorem lines_accepted {n : Nat} {before : Outline} (hu : isUnit u)
    (hp : before.isPlain) (ha : before.isAllowed tags) {xs : List Text}
    (hxs : Forall₂ (SpelledAt u) before xs) (hs : s.Awaits tags u (before ++ o))
    (hc : before.trace.Climbs s.page.room) :
    ∃ s', (xs.forM (lineTo (n + 1))).runFrom s = (.ok (), s') ∧ s'.Awaits tags u o ∧
      s.page.follow tags u before.trace = .ok s'.page ∧ s'.reported = s.reported := by
  induction before generalizing s xs with
  | nil =>
    cases hxs
    exact ⟨s, rfl, hs, rfl, rfl⟩
  | cons x before ih =>
    obtain ⟨k, m⟩ := x
    rw [Outline.isPlain, all_cons, Bool.and_eq_true, Bool.and_eq_true] at hp
    rw [Outline.isAllowed, all_cons, Bool.and_eq_true] at ha
    cases hxs with
    | cons hx hxs =>
      obtain ⟨tag, e, htag, he, rfl⟩ := hx
      obtain ⟨q, hrun, hq, hstep⟩ := line_accepted (lineTo n) hs hp.1.1 htag hu he ha.1 hc.1
      obtain ⟨s', hrest, hs', hfollow, hreported⟩ := ih hp.2 ha.2 hxs hq
        (by rw [page_withPage, (step_ok hstep).2]; exact hc.2)
      refine ⟨s', ?_, hs', ?_, hreported⟩
      · rw [runFrom_forM_cons]
        have hline : (lineTo (n + 1) (sourceLine u k tag e)).runFrom s =
            (.ok (), (s.learn u k).withPage q) := hrun
        rw [hline]
        exact hrest
      · rw [Outline.trace, map_cons, follow, hstep]
        exact hfollow

theorem guardLine_rejected {t : Session} {line : Text} {why : Rejection} (path : Text) (n : Nat)
    (h : (handle line).runFrom s = (.error (.rejected why), t)) :
    ∃ t', (guardLine handle path n line).runFrom s = (.error .stopped, t') ∧ t'.page = t.page ∧
      t'.messages = t.messages ++ (placeOfError path n ++ why.message ++ '\n' :: line.quoted ++ ['\n']) := by
  refine ⟨{ t with
    reported := '\n' :: line.quoted.reverse ++
      ('\n' :: (placeOfError path n ++ why.message).reverse ++ t.reported) }, ?_, rfl, ?_⟩
  · simp [guardLine, runFrom_tryCatch, h, Fault.message?, runFrom_bind, report]
  · simp [messages]

end Compile

/-! ## Documents -/

theorem ended_cons (l : Text) (ls : List Text) (terminated : Bool) :
    ∃ e, LineEnd e ∧ ended (l :: ls) terminated = (l ++ e) :: ended ls terminated := by
  cases ls with
  | cons m ls => exact ⟨['\n'], .inr rfl, rfl⟩
  | nil =>
    cases terminated with
    | true => exact ⟨['\n'], .inr rfl, rfl⟩
    | false => exact ⟨[], .inl rfl, by simp [ended]⟩

theorem ended_append_cons (ls : List Text) (l : Text) (xs : List Text) (terminated : Bool) :
    ended (ls ++ l :: xs) terminated = ls.map (· ++ ['\n']) ++ ended (l :: xs) terminated := by
  induction ls with
  | nil => rfl
  | cons m ls ih =>
    obtain ⟨r, rs, hr⟩ : ∃ r rs, ls ++ l :: xs = r :: rs := exists_cons_of_ne_nil (by simp)
    rw [cons_append, hr, ended_cons_cons, ← hr, ih]
    rfl

theorem source_lines_split {ls xs : List Text} {l : Text}
    (h : ∀ x ∈ ls ++ l :: xs, Unbroken x) (terminated : Bool) :
    ∃ e numbered rest, LineEnd e ∧ numbered.map (·.2) = ls.map (· ++ ['\n']) ∧
      Source.lines (sourceText (ls ++ l :: xs) terminated) = numbered ++ (ls.length + 1, l ++ e) :: rest := by
  obtain ⟨e, he, hcut⟩ := ended_cons l xs terminated
  have hbefore : ∀ x ∈ ls.map (· ++ ['\n']), '\\' ∉ x := by
    intro x hx
    obtain ⟨y, hy, rfl⟩ := mem_map.mp hx
    simp [(h y (mem_append_left _ hy)).2.2]
  have hline : '\\' ∉ l ++ e := by
    simp [(h l (by simp)).2.2, he.not_mem (c := '\\') (by decide)]
  refine ⟨e, _, Source.joinFrom (ls.length + 1) [] (ended xs terminated), he, joinFrom_eq_self hbefore 0, ?_⟩
  rw [Source.lines, lines_sourceText fun x hx => ⟨(h x hx).1, (h x hx).2.1⟩, ended_append_cons, hcut,
    joinFrom_append hbefore, joinFrom_cons hline, length_map, Nat.zero_add]

theorem Outline.length_lines (o : Outline) (u : Text) : (o.lines u).length = o.length := length_map _

namespace Document
variable {tags : TagTable} {files : Files} {path u : Text} {o : Outline} {terminated : Bool}

theorem compile_of_rejected {text : Text} {s t : Session} {before after : List Text}
    {line : Text} {why : Rejection} (hread : HasFile files path text)
    (hlines : (Source.lines text).map (·.2) = before ++ line :: after)
    (hrun : (before.forM (handle tags files path)).runFrom (start tags files path) = (.ok (), s))
    (hline : (handle tags files path line).runFrom s = (.error (.rejected why), t)) :
    (compile tags files path).fault = some .stopped ∧
      (compile tags files path).output = t.page.written.reverse := by
  obtain ⟨numbered, others, hsplit, hnumbered, hothers⟩ := map_eq_append_iff.mp hlines
  obtain ⟨⟨n, l⟩, rest, rfl, hl, _⟩ := map_eq_cons_iff.mp hothers
  obtain rfl : l = line := hl
  obtain ⟨t', hguard, hpage, _⟩ := guardLine_rejected path n hline
  have hguards := guardLines_ok path (hnumbered.symm ▸ hrun)
  have hfile : (compileFile (handle tags files path) path).runFrom (start tags files path) =
      (.error .stopped, t') := by
    rw [compileFile_run tags hread, runFrom_bind_error]
    rw [hsplit, runFrom_forM_append_ok hguards, runFrom_forM_cons, hguard]
  rw [compile_eq hfile]
  exact ⟨rfl, congrArg (fun p : Page => p.written.reverse) hpage⟩

theorem awaits_start (files : Files) (path : Text) (h : o.StartsAtOne) : (start tags files path).Awaits tags u o :=
  ⟨idle_start u, ⟨⟨Int.le_refl _, fun _ => rfl⟩, rfl⟩, rfl, .inr ⟨rfl, h⟩⟩

theorem compile_accepted (hu : isUnit u) (hread : HasFile files path (sourceText (o.lines u) terminated))
    (hp : o.isPlain) (hone : o.StartsAtOne) (ha : o.Accepted tags) :
    (compile tags files path).fault = none := by
  obtain ⟨hallowed, hclimbs⟩ := Outline.accepted_iff.mp ha
  obtain ⟨n, _, hn⟩ := handle_eq tags hread
  have hs : (start tags files path).Awaits tags u (o ++ []) := by
    rw [append_nil]
    exact awaits_start files path hone
  obtain ⟨s, hrun, hs, _⟩ := lines_accepted (n := n) hu hp hallowed
    (spelledAt_lines hp (forall₂_ended (o.lines u) terminated)) hs hclimbs
  rw [← source_lines (Outline.line_signs hp hu), ← hn] at hrun
  exact (compile_of_ok hread hrun (closeAll_run _ hs.idle (indents_of_isUnit hu))).1

/-- Compilation stops at the first line that is refused, on the page that the lines before left. -/
theorem compile_refused {before after : Outline} {x : Nat × Markup Text} (hu : isUnit u)
    (hread : HasFile files path (sourceText (o.lines u) terminated))
    (hp : o.isPlain) (hfirst : ∀ k ∈ o.depths.head?, k = 0) (hone : o.StartsAtOne)
    (ho : o = before ++ x :: after) (ha : before.Accepted tags) (hx : ∃ why, Refused tags before.room x why) :
    ∃ why s t e, Refused tags before.room x why ∧ LineEnd e ∧
      (((before.lines u).map (· ++ ['\n'])).forM (handle tags files path)).runFrom
        (start tags files path) = (.ok (), s) ∧
      (compileFile (handle tags files path) path).runFrom (start tags files path) = (.error .stopped, t) ∧
      t.page = s.page ∧ t.messages = placeOfError path (before.length + 1) ++ why.message ++
        '\n' :: Text.quoted (u.times x.1 ++ x.2.written ++ e) ++ ['\n'] := by
  obtain ⟨k, m⟩ := x
  obtain ⟨n, _, hn⟩ := handle_eq tags hread
  obtain ⟨hallowed, hclimbs⟩ := Outline.accepted_iff.mp ha
  have hsigns := Outline.line_signs hp hu
  subst ho
  rw [Outline.isPlain, all_append, all_cons, Bool.and_eq_true, Bool.and_eq_true, Bool.and_eq_true] at hp
  obtain ⟨hbefore, ⟨hm, hun⟩, _⟩ := hp
  -- The lines before are placed.
  have hended : Forall₂ IsEnded (before.lines u) ((before.lines u).map (· ++ ['\n'])) :=
    forall₂_map_right_iff.mpr (forall₂_same.mpr fun l _ => ⟨['\n'], .inr rfl, rfl⟩)
  obtain ⟨s, hrun, hs, hfollow, hreported⟩ := lines_accepted (n := n) hu hbefore hallowed
    (spelledAt_lines hbefore hended) (awaits_start files path hone) hclimbs
  have hroom : s.page.room = before.room := (Page.follow_room hfollow).trans before.roomAfter_trace
  have hplaced : 0 < s.page.room ∨ k = 0 := by
    rw [hroom]
    rcases eq_nil_or_concat' before with rfl | ⟨_, y, rfl⟩
    · exact .inr (hfirst k rfl)
    · exact .inl (by rw [Outline.room_append_singleton]; exact Nat.succ_pos _)
  -- The line itself is turned down and reported.
  have hsplit : Outline.lines u (before ++ (k, m) :: after) =
      before.lines u ++ (u.times k ++ m.written) :: Outline.lines u after := map_append
  obtain ⟨e, numbered, rest, he, hnumbered, hsource⟩ := source_lines_split (hsplit ▸ hsigns) terminated
  obtain ⟨why, hwhy, hline⟩ := line_refused (lineTo n) hs hm (spells_written hm hun)
    hu he hplaced (exists_refused_iff.mp (by rw [hroom]; exact hx))
  have hline' : (lineTo (n + 1) (u.times k ++ m.written ++ e)).runFrom s =
      (.error (.rejected why), s.learn u k) := by
    rw [append_assoc]
    exact hline
  obtain ⟨t, hguard, hpage, hmessages⟩ := guardLine_rejected path (before.length + 1) hline'
  rw [hroom] at hwhy
  refine ⟨why, s, t, e, hwhy, he, by rw [hn]; exact hrun, ?_, hpage, ?_⟩
  · have hguards := guardLines_ok path (hnumbered.symm ▸ hrun)
    rw [Outline.length_lines] at hsource
    rw [compileFile_run tags hread, runFrom_bind_error]
    rw [hsplit, hsource, runFrom_forM_append, hn, hguards]
    dsimp only
    rw [runFrom_forM_cons, hguard]
  · rw [hmessages]
    have hnone : s.messages = [] := by
      rw [Session.messages, hreported]
      rfl
    change s.messages ++ _ = _
    rw [hnone, nil_append]

/-- Compiling a document of markup fails exactly if one of its lines is refused. It then stops with
a report that names the number of the first such line, and output, open elements, latest element and
level are those that the lines before it left. -/
theorem compile_fails_iff_refused (tags : TagTable) (u : Text) (o : Outline) (terminated : Bool)
    (files : Files) (path : Text)
    (hread : HasFile files path (sourceText (o.lines u) terminated))
    (hu : isUnit u = true) (hp : o.isPlain = true) (hfirst : ∀ k ∈ o.depths.head?, k = 0)
    (hone : o.StartsAtOne) :
    ((compile tags files path).fault ≠ none ↔
      ∃ (before : Outline) (x : Nat × Markup Text) (after : Outline), o = before ++ x :: after ∧
        ∃ why, Refused tags before.room x why) ∧
    ∀ (before : Outline) (x : Nat × Markup Text) (after : Outline), o = before ++ x :: after →
      before.Accepted tags → (∃ why, Refused tags before.room x why) →
      ∃ why s t e, Refused tags before.room x why ∧ LineEnd e ∧
        (((before.lines u).map (· ++ ['\n'])).forM (handle tags files path)).runFrom
          (start tags files path) = (.ok (), s) ∧
        (Compile.compileFile (handle tags files path) path).runFrom (start tags files path) =
          (.error .stopped, t) ∧
        t.page = s.page ∧ (compile tags files path).fault = some .stopped ∧
        (compile tags files path).output = s.output ∧
        (compile tags files path).messages =
          Compile.placeOfError path (before.length + 1) ++ why.message ++
            '\n' :: Text.quoted (u.times x.1 ++ x.2.written ++ e) ++ ['\n'] := by
  constructor
  · constructor
    · intro hfault
      have hnot : ¬ o.Accepted tags := fun ha => hfault (compile_accepted hu hread hp hone ha)
      obtain ⟨before, x, after, ho, _, hx⟩ := Outline.exists_first_refused hnot
      exact ⟨before, x, after, ho, hx⟩
    · rintro ⟨before, x, after, ho, why, hwhy⟩
      have hnot : ¬ o.Accepted tags := fun ha => ha before x after ho why hwhy
      obtain ⟨before, x, after, ho, ha, hx⟩ := Outline.exists_first_refused hnot
      obtain ⟨_, _, t, _, _, _, _, ht, _⟩ := compile_refused hu hread hp hfirst hone ho ha hx
      rw [compile_eq ht]
      exact nofun
  · intro before x after ho ha hx
    obtain ⟨why, s, t, e, hwhy, he, hs, ht, hpage, hmessages⟩ :=
      compile_refused hu hread hp hfirst hone ho ha hx
    refine ⟨why, s, t, e, hwhy, he, hs, ht, hpage, ?_⟩
    rw [compile_eq ht]
    have houtput : t.output = s.output := congrArg (fun p : Page => p.written.reverse) hpage
    exact ⟨rfl, houtput, hmessages⟩

def refusedOutline : Outline :=
  [(0, .element "div" (some [("id", "a b")]) true),
    (1, .element "1p" none false), (3, .text "x-y"), (0, .element "q" none false)]

def strictTags : TagTable :=
  [("div", ⟨.normal, some ["id"]⟩), ("1p", ⟨.separate, none⟩)]

theorem compile_fails_iff_refused_sample :
    (compile strictTags [("a", sourceText (refusedOutline.lines "\t") true)]
        "a").fault = some .stopped ∧
      ∃ why e, Refused strictTags 2 (3, .text "x-y") why ∧ LineEnd e ∧
        (compile strictTags [("a", sourceText (refusedOutline.lines "\t") true)]
          "a").messages =
          "Error in a: line 3: " ++ why.message ++
            '\n' :: Text.quoted ("\t\t\t\"x-y\"" ++ e) ++ ['\n'] := by
  have h := compile_fails_iff_refused strictTags "\t" refusedOutline true
    [("a", sourceText (refusedOutline.lines "\t") true)] "a"
    (by rfl) (by decide) (by decide) (by decide) (by decide)
  obtain ⟨why, _, _, e, hwhy, he, _, _, _, hfault, _, hmessages⟩ :=
    h.2 (refusedOutline.take 2) (3, .text "x-y") [(0, .element "q" none false)] rfl
      (Outline.accepted_iff.mpr ⟨by decide, by decide, by decide, trivial⟩)
      ⟨_, .tooDeep (by decide)⟩
  exact ⟨hfault, why, e, hwhy, he, hmessages⟩

end Document
end OutlineMarkup
