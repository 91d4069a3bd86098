import OutlineMarkup.Proofs.VerbatimLines

/-!
# Verbatim blocks

A document of plain markup may hold verbatim blocks, whose lines are taken over as they stand. Main
statement: compiling such a document prints its rendering, in which a block is a leaf.
-/

namespace OutlineMarkup
open List Compile Markup Action Indentation Forest Verbatim

/-- Elements and texts with what is nested in them, and verbatim blocks. -/
inductive Manuscript where
  | nil
  | node (markup : Markup Text) (children rest : Manuscript)
  | block (kind : Verbatim) (content : List Text) (rest : Manuscript)
  deriving Repr, DecidableEq

namespace Manuscript

def lines (u : Text) : Nat → Manuscript → List Text
  | _, nil => []
  | k, node m children rest =>
    (u.times k ++ m.written) :: (children.lines u (k + 1) ++ rest.lines u k)
  | k, block v content rest => (u.times k ++ v.header) :: (content ++ rest.lines u k)

/-- Plain markup that the grammar allows and that is not named like a kind of block, and blocks of
the declared kinds. -/
def isFit (tags : TagTable) (u : Text) (declared : List Verbatim) : Nat → Manuscript → Bool
  | _, nil => true
  | k, node m children rest =>
    m.isPlain && isUnreserved m.written && m.isAllowed tags &&
      declared.all (m.name? != some ·.name) &&
      children.isFit tags u declared (k + 1) && rest.isFit tags u declared k
  | k, block v content rest =>
    declared.contains v && content.all (isContent u k) && rest.isFit tags u declared k

def isNil : Manuscript → Bool
  | nil => true
  | _ => false

/-- The rendering of a manuscript from a depth on: that of a block has its content without the first
signs of each line. -/
def render (tags : TagTable) (u : Text) : Nat → Manuscript → Text
  | _, nil => []
  | k, node m children rest =>
    Forest.tree tags u k m children.isNil (children.render tags u (k + 1)) ++ rest.render tags u k
  | k, block v content rest =>
    u.times k ++ v.opening ++ ['\n'] ++ (content.flatMap fun l => l.drop (k + 1) ++ ['\n']) ++
      (u.times k ++ v.closing ++ ['\n']) ++ rest.render tags u k

end Manuscript

/-! ## Runs -/

namespace Compile
variable {tags : TagTable} {u : Text} {declared : List Verbatim} {v : Verbatim} {s : Session} {k : Nat}
  {p : Page}

/-- The session stands for a page that has room for a number of levels: it is outside all blocks, or
inside one that is yet to be written. -/
inductive Stands (tags : TagTable) (u : Text) (declared : List Verbatim) : Page → Nat → Session → Prop
  | outside {s : Session} (h : s.Outside tags u declared) :
    Stands tags u declared s.page s.page.room s
  | inside {s : Session} {v : Verbatim} {k : Nat} {text : Text}
    (h : Collected tags u declared v k text s) :
    Stands tags u declared (s.afterBlock v u k text).page k (s.inside v k text)

/-- The unit is known, or the first line with an indentation tells it. -/
def Learns (u : Text) (s : Session) (ls : List Text) : Prop :=
  s.indentation.unit = some u ∨
    ∀ l ∈ ls.find? fun l => !(Indentation.leading l).isEmpty, Indentation.leading l = u

theorem Learns.tail {t : Session} {l : Text} {ls : List Text} (h : Learns u s (l :: ls))
    (ht : t.indentation.unit = some u ∨
      leading l = [] ∧ t.indentation.unit = s.indentation.unit) : Learns u t ls := by
  rcases ht with ht | ⟨hl, ht⟩
  · exact .inl ht
  · rcases h with h | h
    · exact .inl (ht.trans h)
    · refine .inr fun x hx => h x ?_
      rw [find?_cons, hl]
      exact hx

namespace Stands
variable {n : Nat} {q : Page} {ls after : List Text}

theorem le_room (h : Stands tags u declared p n s) : n ≤ p.room := by
  cases h with
  | outside h => exact Nat.le_refl _
  | inside h =>
    exact (Nat.le_succ n).trans h.room.ge

theorem handled (h : Stands tags u declared p n s) (hu : isUnit u)
    (hn : (declared.map name).Nodup) (hd : ∀ v ∈ declared, v.isDeclarable)
    {tag e : Text} (ht : Text.Solid tag) (hk : k ≤ n) (m : Nat) :
    ∃ t j, t.Outside tags u declared ∧ t.page = p ∧ t.indentation.unit = s.indentation.unit ∧
      (lineTo (m + 2) (sourceLine u k tag e)).runFrom s =
        (line (lineTo j) (sourceLine u k tag e)).runFrom t := by
  cases h with
  | outside h => exact ⟨s, m + 1, h, rfl, rfl, rfl⟩
  | inside h => exact ⟨_, m, h.ended, rfl, rfl, h.line_ends hu hn (hd _ h.mem) hk ht⟩

theorem of_outside {t : Session} (h : t.Outside tags u declared) (hp : t.page = p)
    (hroom : p.room = n) : Stands tags u declared p n t := by
  subst hp hroom
  exact .outside h

theorem markup (h : Stands tags u declared p n s) (hu : isUnit u)
    (hn : (declared.map name).Nodup) (hd : ∀ v ∈ declared, v.isDeclarable)
    {x : Markup Text} (hx : x.isPlain) (hun : isUnreserved x.written)
    (hname : ∀ v ∈ declared, x.name? ≠ some v.name) (hk : k ≤ n) (hq : p.put tags u k x = .ok q) (m : Nat) :
    ∃ t, (lineTo (m + 2) (sourceLine u k x.written ['\n'])).runFrom s = (.ok (), t) ∧
      Stands tags u declared q (k + 1) t ∧
      (t.indentation.unit = some u ∨ k = 0 ∧ t.indentation.unit = s.indentation.unit) := by
  have hspells := spells_written hx hun
  have hcalm : Calm x.written := hspells.calm
  have hend : LineEnd ['\n'] := .inr rfl
  obtain ⟨t, j, ht, hpage, hunit, hline⟩ := h.handled hu hn hd (e := ['\n']) hcalm.solid hk m
  have hroom : k ≤ t.page.room := by
    rw [hpage]
    exact hk.trans h.le_room
  have hunnamed : t.verbatims.has (blockName x.written) = false := by
    apply ht.has_eq_false
    intro hm
    obtain ⟨v, hv, heq⟩ := mem_map.mp hm
    exact blockName_written hx (hd v hv) (hname v hv) heq.symm
  have hplain : (line (lineTo j) (sourceLine u k x.written ['\n'])).runFrom t =
      (markupLine (lineTo j) k (u.times k) x.written).runFrom (t.learn u k) := by
    rw [line_unnamed (s := t) hu (ht.idle.reads hroom) ht.idle.block hunnamed hcalm.solid
      (hcalm.head?_ne rfl (by decide)) hend (hcalm.expand_sourceLine hu hend)]
    exact plainLine_calm (s := t.learn u k) hcalm hu hend ht.idle.loops ht.idle.defining k _
  have hput := markupLine_put (s := t) (k := k) (lineTo j) hspells hx (indents_of_isUnit hu) ht.idle.defining ht.idle.knowsUnit
    ht.idle.known (fun name _ => by rw [ht.methods]; rfl)
  have htags : t.tags = tags := ht.idle.table
  rw [hpage, htags, hq] at hput
  refine ⟨_, hline.trans (hplain.trans hput), ?_, ?_⟩
  · obtain ⟨hregular, hqroom⟩ := Page.step_ok (x := (k, some x)) hq
    have hknown : q.Known t.tags := by
      have hp : p.Known tags := by
        rw [← hpage, ← htags]
        exact ht.idle.known
      rw [htags]
      exact hp.put (indents_of_isUnit hu) hx hq
    exact of_outside (ht.learn_withPage hregular hknown hqroom) rfl hqroom
  · rcases Session.learn_unit (s := t) (u := u) (k := k) with hlearnt | rfl
    · exact .inl hlearnt
    · exact .inr ⟨rfl, hunit⟩

theorem content (hu : isUnit u) (hn : (declared.map name).Nodup) (hv : v ∈ declared) {w : Text}
    (hs : s.Outside tags u declared) (hls : ∀ l ∈ ls, isContent u k l)
    (hlearn : Learns u s (ls ++ after)) (m : Nat) :
    ∃ t : Session, ((ls.map (· ++ ['\n'])).forM (lineTo (m + 1))).runFrom (s.inside v k w) =
        (.ok (), t.inside v k (w ++ ls.flatMap fun l => l.drop (k + 1) ++ ['\n'])) ∧
      t.Outside tags u declared ∧ t.page = s.page ∧ Learns u t after := by
  induction ls generalizing s w with
  | nil => exact ⟨s, by simp, hs, rfl, hlearn⟩
  | cons l ls ih =>
    have hl := hls l mem_cons_self
    have hindented := leading_ne_nil hu hl
    have hunit : s.indentation.unit = some u ∨ s.indentation.unit = none ∧ leading l = u := by
      rcases hs.idle.unit with hunit | ⟨hunit, _⟩
      · exact .inl hunit
      · rcases hlearn with hknown | hfirst
        · exact .inl hknown
        · refine .inr ⟨hunit, hfirst l ?_⟩
          simp [hindented]
    have hline : (lineTo (m + 1) (l ++ ['\n'])).runFrom (s.inside v k w) = _ :=
      line_content (lineTo m) hu hn hv hs hl hunit
    have hout : (s.learn u 1).Outside tags u declared :=
      ⟨⟨hs.idle.table, hs.idle.block, rfl, hs.idle.loops, hs.idle.defining, .inl rfl,
        hs.idle.regular, hs.idle.known⟩, hs.verbatims, hs.methods, hs.text⟩
    obtain ⟨t, hrun, ht, hpage, hlearn'⟩ := ih (s := s.learn u 1)
      (w := w ++ (l.drop (k + 1) ++ ['\n'])) hout
      (forall_mem_cons.mp hls).2 (hlearn.tail (.inl rfl))
    refine ⟨t, ?_, ht, hpage, hlearn'⟩
    rw [map_cons, runFrom_forM_cons, hline]
    have happend : w ++ (l :: ls).flatMap (fun l => l.drop (k + 1) ++ ['\n']) =
        w ++ (l.drop (k + 1) ++ ['\n']) ++ ls.flatMap (fun l => l.drop (k + 1) ++ ['\n']) := by simp
    rw [happend]
    exact hrun

theorem has_content (hls : ∀ l ∈ ls, isContent u k l) :
    Text.has (ls.flatMap fun l => l.drop (k + 1) ++ ['\n']) "\\$" = false := by
  induction ls with
  | nil => rfl
  | cons l ls ih =>
    have hrest := ih (forall_mem_cons.mp hls).2
    obtain ⟨_, _, _, hl, _⟩ := isContent_iff.mp (hls l mem_cons_self)
    rw [Text.has_eq_false_iff] at hrest hl ⊢
    intro hpart
    rw [flatMap_cons, append_assoc, singleton_append] at hpart
    rcases Text.infix_append_cons (by decide) hpart with hpart | hpart
    · exact hl (hpart.trans (drop_suffix _ _).isInfix)
    · exact hrest hpart

theorem block (h : Stands tags u declared p n s) (hu : isUnit u)
    (hn : (declared.map name).Nodup) (hd : ∀ v ∈ declared, v.isDeclarable)
    (hv : v ∈ declared) (hls : ∀ l ∈ ls, isContent u k l)
    (hk : k ≤ n) (hlearn : Learns u s ((u.times k ++ v.header) :: (ls ++ after)))
    (hq : p.put tags u k (.text (v.blockText u k (ls.flatMap fun l => l.drop (k + 1) ++ ['\n']))) =
      .ok q) (m : Nat) :
    ∃ t, ((((u.times k ++ v.header) :: ls).map (· ++ ['\n'])).forM (lineTo (m + 2))).runFrom s =
        (.ok (), t) ∧ Stands tags u declared q k t ∧ Learns u t after := by
  have hsolid := solid_header (hd v hv)
  obtain ⟨t, j, ht, hpage, hunit, hline⟩ := h.handled hu hn hd (e := ['\n']) hsolid hk m
  obtain ⟨_, r, hr, rfl⟩ := Page.put_ok hq
  have hroom : k ≤ t.page.room := by
    rw [hpage]
    exact hk.trans h.le_room
  have hopen := line_opens (lineTo j) hu hn hv (hd v hv) ht (.inr rfl) (ht.idle.reads hroom)
    (by rw [hpage]; exact hr)
  rw [← hline] at hopen
  obtain ⟨b, hb⟩ : ∃ b, b = (t.learn u k).withPage { r with lastElement := none } := ⟨_, rfl⟩
  obtain ⟨hregular, hrroom⟩ := Page.step_ok (x := (k, none)) hr
  have hbout : b.Outside tags u declared := by
    have htags : t.tags = tags := ht.idle.table
    have hknown : r.Known t.tags := by
      have hp : p.Known tags := by
        rw [← hpage, ← htags]
        exact ht.idle.known
      rw [htags]
      exact hp.enter (fun tag htag => by cases htag) hr
    rw [hb]
    exact ht.learn_withPage ⟨hregular.nonneg, hregular.fresh⟩ ⟨by simp, hknown.entries⟩ hrroom
  have hblearn : Learns u b (ls ++ after) := by
    apply hlearn.tail
    rcases Session.learn_unit (s := t) (u := u) (k := k) with hlearnt | rfl
    · rw [hb]
      exact .inl hlearnt
    · refine .inr ⟨?_, ?_⟩
      · obtain ⟨d, hd, hblank⟩ := hsolid.head
        obtain ⟨w, hw⟩ := head?_eq_some_iff.mp hd
        simp [leading, hw, hblank]
      · rw [hb]
        exact hunit
  obtain ⟨c, hrun, hc, hcpage, hclearn⟩ := content hu hn hv (w := []) hbout hls hblearn (m + 1)
  have hheader : (lineTo (m + 2) ((u.times k ++ v.header) ++ ['\n'])).runFrom s =
      (.ok (), b.inside v k []) := by
    rw [append_assoc, hb]
    exact hopen
  refine ⟨c.inside v k (ls.flatMap fun l => l.drop (k + 1) ++ ['\n']), ?_, ?_, hclearn⟩
  · rw [map_cons, runFrom_forM_cons_ok hheader]
    exact hrun
  · have hlastc : c.lastElement = none := by
      have := congrArg Page.lastElement hcpage
      rw [hb] at this
      exact this
    have hroomc : c.page.room = k + 1 := by
      rw [hcpage, hb]
      exact hrroom
    have hcollected : Collected tags u declared v k
        (ls.flatMap fun l => l.drop (k + 1) ++ ['\n']) c := ⟨hc, hv, hroomc, hlastc, has_content hls⟩
    have hstands := Stands.inside hcollected
    have hwritten : (c.afterBlock v u k (ls.flatMap fun l => l.drop (k + 1) ++ ['\n'])).page =
        r.write u k (.text (v.blockText u k (ls.flatMap fun l => l.drop (k + 1) ++ ['\n']))) := by
      change c.page.write u k _ = _
      rw [hcpage, hb]
      rfl
    rw [hwritten] at hstands
    exact hstands

end Stands
end Compile

namespace Manuscript
variable {tags : TagTable} {u : Text} {declared : List Verbatim} {rest F : Manuscript} {k : Nat}

/-- The forest that a manuscript is placed as, where a block is a text. -/
def forest (u : Text) : Nat → Manuscript → Forest
  | _, nil => .nil
  | k, node m children rest => .node m (children.forest u (k + 1)) (rest.forest u k)
  | k, block v content rest =>
    .node (.text (v.blockText u k (content.flatMap fun l => l.drop (k + 1) ++ ['\n']))) .nil
      (rest.forest u k)

theorem isNil_forest (F : Manuscript) (k : Nat) : (F.forest u k).isNil = F.isNil := by
  cases F <;> rfl

theorem render_forest (F : Manuscript) (k : Nat) : (F.forest u k).render tags u k = F.render tags u k := by
  induction F generalizing k with
  | nil => rfl
  | node m children rest ihchildren ihrest =>
    rw [forest, Forest.render, render, isNil_forest, ihchildren, ihrest]
  | block v content rest ih =>
    rw [forest, Forest.render, render, ih, Forest.render]
    simp [Forest.tree, blockText]

theorem isFit_node {m : Markup Text} {children : Manuscript} :
    (node m children rest).isFit tags u declared k ↔ m.isPlain ∧ isUnreserved m.written ∧ m.isAllowed tags ∧
        (∀ v ∈ declared, m.name? ≠ some v.name) ∧ children.isFit tags u declared (k + 1) ∧
        rest.isFit tags u declared k := by
  simp [isFit, and_assoc]

theorem isFit_block {v : Verbatim} {content : List Text} :
    (block v content rest).isFit tags u declared k ↔ v ∈ declared ∧ (∀ l ∈ content, isContent u k l) ∧
        rest.isFit tags u declared k := by
  simp [isFit, and_assoc]

theorem check_forest (h : F.isFit tags u declared k) :
    ∀ x ∈ (F.forest u k).outline k, x.2.check tags = .ok () := by
  induction F generalizing k with
  | nil => intro x hx; cases hx
  | node m children rest ihchildren ihrest =>
    obtain ⟨hm, _, ha, _, hchildren, hrest⟩ := isFit_node.mp h
    intro x hx
    rw [forest, outline] at hx
    rcases mem_cons.mp hx with rfl | hx
    · exact check_of_isAllowed hm ha
    · rcases mem_append.mp hx with hx | hx
      · exact ihchildren hchildren x hx
      · exact ihrest hrest x hx
  | block v content rest ih =>
    obtain ⟨_, _, hrest⟩ := isFit_block.mp h
    intro x hx
    rw [forest, outline] at hx
    rcases mem_cons.mp hx with rfl | hx
    · rfl
    · exact ih hrest x (by simpa [outline] using hx)

section Run
variable (hu : isUnit u) (hn : (declared.map Verbatim.name).Nodup)
  (hd : ∀ v ∈ declared, v.isDeclarable)

include hu hn hd

theorem run_lines (m : Nat) (F : Manuscript) {k n : Nat} {p : Page} {s : Session} {after : List Text}
    (hF : F.isFit tags u declared k) (hs : Stands tags u declared p n s) (hk : k ≤ n)
    (hp : p.Balanced) (hlearn : Learns u s (F.lines u k ++ after)) :
    ∃ t q j, (((F.lines u k).map (· ++ ['\n'])).forM (lineTo (m + 2))).runFrom s = (.ok (), t) ∧
      Stands tags u declared q j t ∧ k ≤ j ∧
      p.follow tags u ((F.forest u k).outline k).trace = .ok q ∧ q.Balanced ∧ Learns u t after := by
  induction F generalizing k n p s after with
  | nil => exact ⟨s, p, n, rfl, hs, hk, rfl, hp, hlearn⟩
  | node x children rest ihchildren ihrest =>
    obtain ⟨hx, hun, ha, hname, hchildren, hrest⟩ := isFit_node.mp hF
    have hcheck : x.check tags = .ok () := check_of_isAllowed hx ha
    have hroom : k ≤ p.room := hk.trans hs.le_room
    obtain ⟨q₁, hq₁⟩ : ∃ q₁, p.put tags u k x = .ok q₁ := ⟨_, hp.put_eq u hcheck hroom⟩
    have hp₁ : q₁.Balanced := hp.step (x := (k, some x)) hroom hq₁
    obtain ⟨t₁, hrun₁, hs₁, hunit₁⟩ := hs.markup hu hn hd hx hun hname hk hq₁ m
    have hline : (lineTo (m + 2) ((u.times k ++ x.written) ++ ['\n'])).runFrom s = (.ok (), t₁) := by
      rw [append_assoc]
      exact hrun₁
    have hlearn₁ : Learns u t₁ (children.lines u (k + 1) ++ (rest.lines u k ++ after)) := by
      rw [lines, cons_append, append_assoc] at hlearn
      apply hlearn.tail
      rcases hunit₁ with hunit | ⟨rfl, hunit⟩
      · exact .inl hunit
      · refine .inr ⟨?_, hunit⟩
        have hcalm := (spells_written hx hun).calm
        simpa [sourceLine] using hcalm.leading_sourceLine (k := 0) (e := []) hu
    obtain ⟨t₂, q₂, j₂, hrun₂, hs₂, hj₂, hfollow₂, hp₂, hlearn₂⟩ :=
      ihchildren hchildren hs₁ (Nat.le_refl _) hp₁ hlearn₁
    obtain ⟨t₃, q₃, j₃, hrun₃, hs₃, hj₃, hfollow₃, hp₃, hlearn₃⟩ :=
      ihrest hrest hs₂ (Nat.le_of_succ_le hj₂) hp₂ hlearn₂
    refine ⟨t₃, q₃, j₃, ?_, hs₃, hj₃, ?_, hp₃, hlearn₃⟩
    · rw [lines, map_cons, map_append, runFrom_forM_cons_ok hline, runFrom_forM_append_ok hrun₂]
      exact hrun₃
    · have hstep : p.step tags u (k, some x) = .ok q₁ := hq₁
      change p.follow tags u ((k, some x) :: Outline.trace (_ ++ _)) = .ok q₃
      rw [Page.follow, hstep, Outline.trace_append]
      change q₁.follow tags u _ = .ok q₃
      rw [Page.follow_append, hfollow₂]
      exact hfollow₃
  | block v content rest ih =>
    obtain ⟨hv, hcontent, hrest⟩ := isFit_block.mp hF
    have hroom : k ≤ p.room := hk.trans hs.le_room
    obtain ⟨x, hx⟩ : ∃ x : Markup Text,
        x = .text (v.blockText u k (content.flatMap fun l => l.drop (k + 1) ++ ['\n'])) := ⟨_, rfl⟩
    have hcheck : x.check tags = .ok () := by rw [hx]; rfl
    obtain ⟨q₁, hq₁⟩ : ∃ q₁, p.put tags u k x = .ok q₁ := ⟨_, hp.put_eq u hcheck hroom⟩
    have hp₁ : q₁.Balanced := hp.step (x := (k, some x)) hroom hq₁
    have hlearn' : Learns u s ((u.times k ++ v.header) :: (content ++ (rest.lines u k ++ after))) := by
      rw [lines, cons_append, append_assoc] at hlearn
      exact hlearn
    obtain ⟨t₁, hrun₁, hs₁, hlearn₁⟩ := hs.block hu hn hd hv hcontent hk hlearn' (by rw [← hx]; exact hq₁) m
    obtain ⟨t₂, q₂, j₂, hrun₂, hs₂, hj₂, hfollow₂, hp₂, hlearn₂⟩ := ih hrest hs₁ (Nat.le_refl _) hp₁ hlearn₁
    refine ⟨t₂, q₂, j₂, ?_, hs₂, hj₂, ?_, hp₂, hlearn₂⟩
    · rw [lines, ← cons_append, map_append, runFrom_forM_append_ok hrun₁]
      exact hrun₂
    · have hstep : p.step tags u (k, some x) = .ok q₁ := hq₁
      rw [forest, ← hx, outline, outline, nil_append]
      change p.follow tags u ((k, some x) :: Outline.trace _) = .ok q₂
      rw [Page.follow, hstep]
      exact hfollow₂

end Run

theorem line_signs (hu : isUnit u) (hd : ∀ v ∈ declared, v.isDeclarable) (hF : F.isFit tags u declared k) :
    ∀ l ∈ F.lines u k, Complete l := by
  induction F generalizing k with
  | nil => intro l hl; cases hl
  | node m children rest ihchildren ihrest =>
    obtain ⟨hm, hun, _, _, hchildren, hrest⟩ := isFit_node.mp hF
    intro l hl
    rw [lines] at hl
    rcases mem_cons.mp hl with rfl | hl
    · have hcalm := (spells_written hm hun).calm
      obtain ⟨hne, hfeed, hslash⟩ := hcalm.line_signs (k := k) hu
      exact ⟨hne, hfeed, last_ne_backslash hslash⟩
    · rcases mem_append.mp hl with hl | hl
      · exact ihchildren hchildren l hl
      · exact ihrest hrest l hl
  | block v content rest ih =>
    obtain ⟨hv, hcontent, hrest⟩ := isFit_block.mp hF
    intro l hl
    rw [lines] at hl
    rcases mem_cons.mp hl with rfl | hl
    · have hname := callName (hd v hv)
      have hfeed : '\n' ∉ v.header := by simp [header, hname.not_mem (c := '\n') (by decide)]
      have hslash : '\\' ∉ v.header := by simp [header, hname.not_mem (c := '\\') (by decide)]
      obtain ⟨hne, hfeed, hslash⟩ := indented_signs (k := k) hu (solid_header (hd v hv)).ne_nil hfeed hslash
      exact ⟨hne, hfeed, last_ne_backslash hslash⟩
    · rcases mem_append.mp hl with hl | hl
      · obtain ⟨_, ⟨c, hc, _⟩, hlast, _, hfeed⟩ := isContent_iff.mp (hcontent l hl)
        exact ⟨ne_nil_of_mem hc, hfeed, hlast⟩
      · exact ih hrest l hl

end Manuscript

/-! ## Documents -/

theorem ended_terminated (ls : List Text) : ended ls true = ls.map (· ++ ['\n']) := by
  induction ls with
  | nil => rfl
  | cons l ls ih =>
    cases ls with
    | nil => rfl
    | cons m ls =>
      rw [ended_cons_cons, ih]
      rfl

namespace Compile
variable {tags : TagTable} {u : Text} {s : Session} {declared : List Verbatim}

theorem line_declares (handle : Handler) {v : Verbatim} (hu : isUnit u) (hs : s.Outside tags u declared)
    (hd : ∀ w ∈ declared, w.isDeclarable) (hv : v.isDeclarable) (hnew : v.name ∉ declared.map Verbatim.name) :
    (line handle (v.written ++ ['\n'])).runFrom s =
      (.ok (), { s with verbatims := kinds (declared ++ [v]) }) := by
  have hend : LineEnd ['\n'] := .inr rfl
  have hsolid := Verbatim.solid_written hv
  have hunnamed : s.verbatims.has (blockName v.written) = false := by
    apply hs.has_eq_false
    intro hm
    obtain ⟨w, hw, hname⟩ := mem_map.mp hm
    have hbefore : v.written.before "(" = v.name ++ " = verbatim" := by
      have hparen : '(' ∉ v.name ++ " = verbatim" := by
        simp [Verbatim.name_not_mem hv (c := '(') rfl]
      rw [Verbatim.written_eq]
      have := Text.before_append_cons (b := Text.join [','] [Verbatim.quoted v.opening,
        Verbatim.quoted v.closing] ++ [')']) hparen
      simpa using this
    have hcolon : ':' ∉ v.name ++ " = verbatim" := by
      simp [Verbatim.name_not_mem hv (c := ':') rfl]
    have hblank : ' ' ∈ blockName v.written := by
      have htrim := trimOf_colon hcolon false
      rw [colonText, if_neg (by simp), append_nil] at htrim
      rw [blockName, hbefore, htrim]
      simp
    rw [← hname] at hblank
    exact Verbatim.name_not_mem (hd w hw) rfl hblank
  have hhash : v.written.head? ≠ some '#' := by
    obtain ⟨c, hc, _⟩ := (Verbatim.callName hv).solid.head
    obtain ⟨r, hr⟩ := head?_eq_some_iff.mp hc
    have hne : c ≠ '#' := by
      rintro rfl
      exact Verbatim.name_not_mem hv (c := '#') rfl (by rw [hr]; exact mem_cons_self)
    simpa [Verbatim.written, hr] using hne
  have hexpand : Shorthand.expand (sourceLine u 0 v.written ['\n']) =
      .ok (sourceLine u 0 v.written ['\n']) := by
    apply shorthand_eq_self
    simp [sourceLine, Verbatim.written_not_mem hv (c := '[') (by simp)]
  have htrim := hsolid.trim_sourceLine (k := 0) hu hend
  have hreads : s.Reads u 0 := hs.idle.reads (Nat.zero_le _)
  have hline : (line handle (sourceLine u 0 v.written ['\n'])).runFrom s = _ :=
    line_unnamed hu hreads hs.idle.block hunnamed hsolid hhash hend hexpand
  have hset : s.verbatims.set v.name v.form = kinds (declared ++ [v]) := by
    have hnot : v.name ∉ s.verbatims.names := by
      rw [hs.verbatims, names_kinds]
      exact hnew
    rw [Table.set_of_not_mem hnot, hs.verbatims]
    simp [kinds]
  have hplain : (plainLine handle 0 (u.times 0) (sourceLine u 0 v.written ['\n'])).runFrom
      (s.learn u 0) = (.ok (), { s with verbatims := kinds (declared ++ [v]) }) := by
    simp only [plainLine, runFrom_bind, runFrom_get, htrim,
      Verbatim.declaresVerbatim_written hv, if_true, Verbatim.declareVerbatim_run hv]
    change (Except.ok (), ({ s with verbatims := s.verbatims.set v.name v.form } : Session)) = _
    rw [hset]
  exact hline.trans hplain

theorem lines_declare (m : Nat) {done : List Verbatim} (hu : isUnit u)
    (hs : s.Outside tags u done) (hd : ∀ v ∈ done ++ declared, v.isDeclarable)
    (hn : ((done ++ declared).map Verbatim.name).Nodup) :
    ∃ t, (((declared.map Verbatim.written).map (· ++ ['\n'])).forM (lineTo (m + 1))).runFrom s =
        (.ok (), t) ∧ t.Outside tags u (done ++ declared) ∧ t.page = s.page := by
  induction declared generalizing done s with
  | nil => exact ⟨s, rfl, by simpa using hs, rfl⟩
  | cons v declared ih =>
    have hnew : v.name ∉ done.map Verbatim.name := by
      rw [map_append, map_cons, nodup_append] at hn
      intro hm
      exact hn.2.2 _ hm _ mem_cons_self rfl
    have hline : (lineTo (m + 1) (v.written ++ ['\n'])).runFrom s = _ :=
      line_declares (lineTo m) hu hs (fun w hw => hd w (mem_append_left _ hw)) (hd v (by simp)) hnew
    have hmoved : done ++ v :: declared = (done ++ [v]) ++ declared := by simp
    rw [hmoved] at hd hn ⊢
    obtain ⟨t, hrun, ht, hpage⟩ := ih (s := { s with verbatims := kinds (done ++ [v]) })
      ⟨hs.idle, rfl, hs.methods, hs.text⟩ hd hn
    refine ⟨t, ?_, ht, hpage⟩
    rw [map_cons, map_cons, runFrom_forM_cons_ok hline]
    exact hrun

end Compile

namespace Document

/-- A document of plain markup and verbatim blocks, whose first indented line is indented by one unit,
prints the forest in which a block is a text. -/
theorem compile_manuscript_eq_printing (tags : TagTable) {u : Text} {declared : List Verbatim}
    {F : Manuscript} {files : Files} {path : Text}
    (hread : HasFile files path (sourceText (declared.map Verbatim.written ++ F.lines u 0) true))
    (hu : isUnit u) (hfirst : ∀ l ∈ (F.lines u 0).find? (fun l => !(leading l).isEmpty), leading l = u)
    (hn : (declared.map Verbatim.name).Nodup) (hd : ∀ v ∈ declared, v.isDeclarable)
    (hF : F.isFit tags u declared 0) : (compile tags files path).Writes
      (((F.forest u 0).printing tags 0).text u) := by
  have hsigns : ∀ l ∈ declared.map Verbatim.written ++ F.lines u 0,
      Complete l := by
    intro l hl
    rcases mem_append.mp hl with hl | hl
    · obtain ⟨v, hv, rfl⟩ := mem_map.mp hl
      exact ⟨(Verbatim.solid_written (hd v hv)).ne_nil, Verbatim.written_not_mem (hd v hv) (by simp),
        last_ne_backslash (Verbatim.written_not_mem (hd v hv) (by simp))⟩
    · exact Manuscript.line_signs hu hd hF l hl
  obtain ⟨n, hlength, hhandle⟩ := handle_eq tags hread
  obtain ⟨m, rfl⟩ : ∃ m, n = m + 1 := ⟨n - 1, by omega⟩
  have hstart : (start tags files path).Outside tags u [] := ⟨idle_start u, rfl, rfl, rfl⟩
  obtain ⟨s, hdeclare, hs, hpage⟩ := lines_declare (m + 1) hu hstart hd hn
  have hblank : s.page.Balanced := by
    rw [hpage]
    exact ⟨⟨Int.le_refl _, fun _ => rfl⟩, rfl⟩
  have hlearn : Learns u s (F.lines u 0 ++ []) := by
    rw [append_nil]
    exact .inr hfirst
  obtain ⟨t, q, j, hrun, hstands, _, hfollow, hbalanced, _⟩ :=
    Manuscript.run_lines hu hn hd m F hF (Stands.outside hs) (Nat.zero_le _) hblank hlearn
  have hlines : (((Source.lines (sourceText (declared.map Verbatim.written ++ F.lines u 0) true)).map
      (·.2)).forM (handle tags files path)).runFrom (start tags files path) = (.ok (), t) := by
    rw [source_lines_of_last hsigns, ended_terminated, hhandle, map_append, runFrom_forM_append_ok hdeclare]
    exact hrun
  -- What stands open at the end is a block or nothing.
  obtain ⟨b, hb, hbpage, hclose⟩ : ∃ b : Session, b.Outside tags u declared ∧ b.page = q ∧
      (closeAll (handle tags files path)).runFrom t = (closeAll (handle tags files path)).runFrom b := by
    cases hstands with
    | outside h => exact ⟨t, h, rfl, rfl⟩
    | inside h =>
      refine ⟨_, h.ended, rfl, ?_⟩
      rw [hhandle]
      exact h.closeAll_ends hu hn hd
  rw [closeAll_outside _ hb hu] at hclose
  obtain ⟨hfault, houtput⟩ := compile_of_ok hread hlines hclose
  refine ⟨hfault, houtput.trans ?_⟩
  obtain ⟨q', hfollow', hq', _, hwritten, _⟩ := follow_printing hu (F.forest u 0) 0 s.page
    hblank (Nat.zero_le _) (Manuscript.check_forest hF)
  rw [hfollow] at hfollow'
  cases hfollow'
  have hpops : (Page.pop tags u)^[q.elements.length] q = q.closeTo tags u 0 := by
    rw [hbalanced.length, Page.closeTo, Nat.sub_zero]
  have hnone : (s.page.closeTo tags u 0).written = [] := by
    rw [hpage]
    rfl
  change ((Page.pop tags u)^[b.page.elements.length] b.page).written.reverse = _
  rw [hbpage, hpops, hwritten, hnone, append_nil, reverse_reverse]

/-- A document that declares kinds of verbatim blocks and then holds plain markup and blocks compiles
to its rendering, in which a block is a leaf with its content as it stands. -/
theorem compile_manuscript_eq_render (tags : TagTable) (u : Text) (declared : List Verbatim)
    (F : Manuscript) (files : Files) (path : Text)
    (hread : HasFile files path (sourceText (declared.map Verbatim.written ++ F.lines u 0) true))
    (hsingle : ∀ entry ∈ tags, entry.2.closing ≠ .single)
    (hu : isUnit u = true)
    (hfirst : ∀ l ∈ (F.lines u 0).find? (fun l => !(Indentation.leading l).isEmpty),
      Indentation.leading l = u)
    (hn : (declared.map Verbatim.name).Nodup) (hd : ∀ v ∈ declared, v.isDeclarable = true)
    (hF : F.isFit tags u declared 0 = true) :
    (compile tags files path).Writes (F.render tags u 0) := by
  obtain ⟨hfault, houtput⟩ := compile_manuscript_eq_printing tags hread hu hfirst hn hd hF
  rw [← Forest.render_eq_printing fun _ _ => TagTable.closing_ne_single hsingle, Manuscript.render_forest] at houtput
  exact ⟨hfault, houtput⟩

def sampleKinds : List Verbatim :=
  [⟨"js", "<script>", "</script>"⟩, ⟨"css", "<style>", "</style>"⟩]

def sampleManuscript : Manuscript :=
  .node (.element "div" none true)
    (.block ⟨"js", "<script>", "</script>"⟩
      ["\t\t# $x", "\t\tfor $i in [a]:", "\t\t\tdef f(y):  ", "\t\tcss:"]
      (.node (.text "x") .nil .nil))
    (.block ⟨"css", "<style>", "</style>"⟩
      ["\t$x := \\n", "\timport m"] .nil)

theorem compile_manuscript_eq_render_sample :
    (compile sampleTags [("a", sourceText (sampleKinds.map Verbatim.written ++
        sampleManuscript.lines "\t" 0) true)] "a").Writes
      ("<div>\n\t<script>\n# $x\nfor $i in [a]:\n\tdef f(y):  \ncss:\n\t</script>\n\tx\n</div>\n" ++
        "<style>\n$x := \\n\nimport m\n</style>\n").toList := by
  have h := compile_manuscript_eq_render sampleTags "\t" sampleKinds sampleManuscript
    [("a", sourceText (sampleKinds.map Verbatim.written ++
      sampleManuscript.lines "\t" 0) true)] "a"
    (by rfl) (by decide) (by decide) (by rintro _ ⟨⟩; rfl) (by decide) (by decide) (by decide)
  refine ⟨h.1, h.2.trans ?_⟩
  decide

end Document
end OutlineMarkup
