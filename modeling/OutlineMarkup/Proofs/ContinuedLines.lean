import OutlineMarkup.Proofs.Acceptance

/-!
# Continued lines

A list of attributes may be broken behind its commas: a backslash ends the line, and the list goes on in the
next one behind any indentation. The lines are joined before anything else is done, and what is joined
differs from the unbroken line by blanks between attributes only. So a document with broken lists is
compiled like the document without the breaks, whatever the grammar allows.
-/

namespace OutlineMarkup
open List Text Markup

/-- Blanks inside a line. -/
abbrev IsGap (b : Text) : Prop := ∀ c ∈ b, Text.isBlank c = true ∧ c ≠ '\n'

/-- The lines of a list of attributes of which `start` has been written and the given ones are left. -/
inductive Breaks (colon : Bool) : Text → List Text → List Text → Prop where
  | last {start : Text} : Breaks colon start [] [start ++ ')' :: Markup.colonText colon]
  | keep {start p : Text} {ps ls : List Text} (rest : Breaks colon (start ++ ", " ++ p) ps ls) :
      Breaks colon start (p :: ps) ls
  | cut {start p before after indent : Text} {ps ls : List Text} (hbefore : IsGap before) (hafter : IsGap after)
      (hindent : IsGap indent) (rest : Breaks colon (indent ++ p) ps ls) :
      Breaks colon start (p :: ps) ((start ++ ',' :: (before ++ '\\' :: after)) :: ls)

/-- The lines of markup at a depth, where a list of attributes may be broken. -/
inductive ContinuedLine (u : Text) : Nat × Markup Text → List Text → Prop where
  | whole (k : Nat) (m : Markup Text) : ContinuedLine u (k, m) [u.times k ++ m.written]
  | list {k : Nat} {name : Text} {a : Text × Text} {as : List (Text × Text)} {colon : Bool} {ls : List Text}
      (breaks : Breaks colon (u.times k ++ name ++ '(' :: Markup.attributeText a) (as.map Markup.attributeText) ls) :
      ContinuedLine u (k, .element name (some (a :: as)) colon) ls

/-! ## Joining -/

/-- Blanks may stand in front of an attribute. -/
def IsIndented (p q : Text) : Prop := ∃ b, IsGap b ∧ q = b ++ p

variable {colon : Bool} {start b u raw p q : Text} {ps ls raws rest : List Text} {n k : Nat}
  {m : Markup Text} {o : Outline}

theorem joinFrom_waits {x y : Text} (hy : ∀ c ∈ y, isBlank c) (hraw : raw = x ++ '\\' :: y) :
    Source.joinFrom n b (raw :: rest) = Source.joinFrom (n + 1) (b ++ b.continuing x) rest := by
  have hblank : trimRight y = [] := trimRight_append_blank (s := []) hy
  have hlast : (raw.trimRight.getLast? == some '\\') := by
    rw [hraw, trimRight_append_cons rfl, hblank, getLast?_concat]
    rfl
  have hwaits : (b.continuing raw).trimRight.dropLast = b.continuing x := by
    rw [hraw, continuing_append_cons rfl, trimRight_append_cons rfl, hblank, dropLast_concat]
  rw [Source.joinFrom, hlast, if_pos rfl, ← hwaits]
  rfl

theorem joinFrom_ends (hraw : raw.trimRight.getLast? ≠ some '\\') : Source.joinFrom n b (raw :: rest) =
      (n + 1, b ++ b.continuing raw) :: Source.joinFrom (n + 1) [] rest := by
  rw [Source.joinFrom, if_neg (by simpa using hraw)]
  rfl

theorem last_of_list {e : Text} (he : LineEnd e) (start : Text) (colon : Bool) :
    (trimRight (start ++ ')' :: (colonText colon ++ e))).getLast? ≠ some '\\' := by
  rw [trimRight_append_cons rfl]
  cases colon <;> rcases he with rfl | rfl <;> simp [colonText, trimRight, dropRightWhile, isBlank]

/-- What is joined is the list, with some blanks in front of each of its attributes. -/
theorem joinFrom_breaks (h : Breaks colon start ps ls) (hps : ∀ p ∈ ps, Solid p)
    (hraws : Forall₂ IsEnded ls raws) (rest : List Text) : ∃ e n' qs, LineEnd e ∧ Forall₂ IsIndented ps qs ∧
      Source.joinFrom n b (raws ++ rest) =
        (n', b ++ b.continuing start ++ qs.flatMap (',' :: ·) ++ ')' :: (colonText colon ++ e)) ::
          Source.joinFrom n' [] rest := by
  induction h generalizing n b raws with
  | @last start =>
    obtain _ | ⟨⟨e, he, rfl⟩, hraws⟩ := hraws
    cases hraws
    refine ⟨e, n + 1, [], he, .nil, ?_⟩
    rw [singleton_append, append_assoc, cons_append, joinFrom_ends (last_of_list he start colon),
      continuing_append_cons rfl]
    simp
  | @keep start p ps ls _ ih =>
    obtain ⟨e, n', qs, he, hqs, hjoin⟩ := ih (forall_mem_cons.mp hps).2 hraws
    refine ⟨e, n', (' ' :: p) :: qs, he, .cons ⟨[' '], by simp [IsGap, isBlank], rfl⟩ hqs, ?_⟩
    have hstart : b.continuing (start ++ ", " ++ p) = b.continuing start ++ ',' :: ' ' :: p := by
      rw [← continuing_append_cons rfl]
      simp
    rw [hjoin, hstart]
    simp
  | @cut start p before after indent ps ls hbefore hafter hindent _ ih =>
    obtain _ | ⟨⟨e, he, rfl⟩, hraws⟩ := hraws
    obtain ⟨e', n', qs, he', hqs, hjoin⟩ := ih (forall_mem_cons.mp hps).2 hraws (n := n + 1)
      (b := b ++ b.continuing (start ++ ',' :: before))
    refine ⟨e', n', (before ++ ' ' :: p) :: qs, he', .cons ⟨before ++ [' '], ?_, by simp⟩ hqs, ?_⟩
    · intro c hc
      rcases mem_append.mp hc with hc | hc
      · exact hbefore c hc
      · rw [mem_singleton.mp hc]
        decide
    · have hblank : ∀ c ∈ after ++ e, isBlank c := by
        intro c hc
        rcases mem_append.mp hc with hc | hc
        · exact (hafter c hc).1
        · exact he.isBlank c hc
      have hp : (indent ++ p).trimLeft = p := by
        have := dropWhile_append_solid (b := []) (fun c hc => (hindent c hc).1) (hps p mem_cons_self)
        simpa [trimLeft] using this
      have hnext : (b ++ b.continuing (start ++ ',' :: before)).continuing (indent ++ p) = ' ' :: p := by
        rw [continuing, if_neg, hp]
        simp [continuing_append_cons (c := ',') rfl]
      rw [cons_append, joinFrom_waits (x := start ++ ',' :: before) hblank (by simp), hjoin, hnext,
        continuing_append_cons rfl]
      simp

/-! ## What is joined -/

theorem IsIndented.trim (hp : Solid p) (h : IsIndented p q) : q.trim = p := by
  obtain ⟨b, hb, rfl⟩ := h
  simpa using trim_append_solid (b := []) (fun c hc => (hb c hc).1) (by simp) hp

theorem IsIndented.not_mem {c : Char} (h : IsIndented p q) (hp : c ∉ p)
    (hc : isBlank c = false ∨ c = '\n') : c ∉ q := by
  obtain ⟨b, hb, rfl⟩ := h
  rw [mem_append, not_or]
  refine ⟨fun hm => ?_, hp⟩
  rcases hc with hc | hc
  · exact absurd (hb c hm).1 (by simp [hc])
  · exact (hb c hm).2 hc

theorem IsIndented.piece (hp : CalmItem p) (h : IsIndented p q) : CalmPiece q := by
  have hblank : ∀ c ∈ ['[', ']', '.', '\n', '\\', '(', ')'], isBlank c = false ∨ c = '\n' := by decide
  have hsigns : ∀ c ∈ q, c ∉ ['[', ']', '.', '\n', '\\', '(', ')'] :=
    fun c hm hc => h.not_mem (fun hmem => hp.piece.signs c hmem hc) (hblank c hc) hm
  obtain ⟨b, hb, rfl⟩ := h
  have hequals : '=' ∉ b := fun hm => absurd (hb _ hm).1 (by decide)
  refine ⟨by simp [hp.piece.ne_nil], hsigns, ?_, ?_⟩
  · exact (equalsAfterWord_of_not_mem hequals).append hp.equals hp.start
  · cases b with
    | nil => exact hp.start
    | cons c b =>
      intro hhead
      exact hequals (mem_of_mem_head? hhead)

theorem spells_indented {name : Text} {as : List (Text × Text)} {qs : List Text}
    (hm : (element name (some as) colon).isPlain) (hun : isUnreserved (element name (some as) colon).written)
    (hqs : Forall₂ IsIndented (as.map attributeText) qs) :
    Spells (callText name [] qs (colonText colon)) (.element name (some as) colon) := by
  have hn := callName_of_isWritable (isWritable_of_isPlain hm)
  have hplain := attributes_plain hm
  have hitem : ∀ q ∈ qs, ∃ p ∈ as.map attributeText, IsIndented p q := fun q hq => exists_of_forall₂ hqs hq
  have htrim : qs.map trim = as.map attributeText := by
    have hsame : Forall₂ (fun q p => q.trim = p) qs (as.map attributeText) :=
      (forall₂_mem hqs).flip.imp fun q p hpq => hpq.2.2.trim (hplain p hpq.1).1.simple.solid
    rwa [← forall₂_map_left_iff, forall₂_eq_eq_eq] at hsame
  have hread : Attributes.read (callText name [] qs (colonText colon)) = .ok (as.map attributeText) := by
    rw [← htrim]
    refine Attributes.read_pieces (hn.not_mem (by decide)) ?_ ?_ ?_
    · cases colon <;> simp [colonText]
    · cases colon <;> simp [colonText]
    · intro q hq
      obtain ⟨p, hp, hpq⟩ := hitem q hq
      have hwhole := (hplain p hp).1.simple.whole
      rw [hpq.trim hwhole.solid]
      exact ⟨hpq.not_mem hwhole.comma (.inl rfl), hpq.not_mem hwhole.feed (.inr rfl), hwhole⟩
  refine names_pieces hn colon (by simp) ?_ ?_ (read_callText_of_read hn colon hread)
  · rw [written_some] at hun
    refine isUnreserved_respell (by simp) (fun q hq => ?_) hun
    obtain ⟨p, hp, b, hb, rfl⟩ := hitem q hq
    exact ⟨p, hp, b, fun c hc => (hb c hc).1, rfl⟩
  · intro q hq
    obtain ⟨p, hp, hpq⟩ := hitem q hq
    exact ⟨hpq.piece (hplain p hp).1, hpq.not_mem (hplain p hp).2 (.inl rfl)⟩

theorem join_comma_cons (p : Text) (qs : List Text) : join [','] (p :: qs) = p ++ qs.flatMap (',' :: ·) := by
  induction qs generalizing p with
  | nil => simp [join]
  | cons q qs ih => rw [join_cons_cons, ih, flatMap_cons]; simp

/-- The lines of markup are joined to one line that stands for it. -/
theorem joinFrom_continued (h : ContinuedLine u (k, m) ls) (hu : isUnit u) (hm : m.isPlain)
    (hun : isUnreserved m.written) (hraws : Forall₂ IsEnded ls raws) (rest : List Text) :
    ∃ n' l, SpelledAt u (k, m) l ∧
      Source.joinFrom n [] (raws ++ rest) = (n', l) :: Source.joinFrom n' [] rest := by
  cases h with
  | whole =>
    obtain _ | ⟨⟨e, he, rfl⟩, hraws⟩ := hraws
    cases hraws
    have hspells := spells_written hm hun
    refine ⟨n + 1, _, ⟨_, e, hspells, he, rfl⟩, ?_⟩
    have hslash := (hspells.calm.line_signs (k := k) hu).2.2
    rw [singleton_append, joinFrom_cons, append_assoc]
    · rfl
    · rw [mem_append, not_or]
      exact ⟨hslash, he.not_mem (by decide)⟩
  | @list _ name a as colon _ h =>
    have hplain := attributes_plain hm
    obtain ⟨e, n', qs, he, hqs, hjoin⟩ := joinFrom_breaks (n := n) (b := []) h
      (fun p hp => (hplain p (by simp_all)).1.simple.solid) hraws rest
    have hall : Forall₂ IsIndented ((a :: as).map attributeText) (attributeText a :: qs) :=
      .cons ⟨[], by simp [IsGap], rfl⟩ hqs
    refine ⟨n', _, ⟨_, e, spells_indented hm hun hall, he, rfl⟩, ?_⟩
    rw [hjoin]
    simp [sourceLine, callText, join_comma_cons, continuing]

/-! ## Documents -/

theorem Breaks.signs (h : Breaks colon start ps ls) (hstart : '\n' ∉ start) (hps : ∀ p ∈ ps, '\n' ∉ p) :
    ∀ l ∈ ls, l ≠ [] ∧ '\n' ∉ l := by
  induction h with
  | last =>
    cases colon <;> simp [colonText, hstart]
  | keep _ ih =>
    refine ih ?_ (forall_mem_cons.mp hps).2
    simp [hstart, hps]
  | cut hbefore hafter hindent _ ih =>
    have hgap : ∀ b, IsGap b → '\n' ∉ b := fun b hb hm => (hb _ hm).2 rfl
    intro l hl
    rcases mem_cons.mp hl with rfl | hl
    · simp [hstart, hgap _ hbefore, hgap _ hafter]
    · refine ih ?_ (forall_mem_cons.mp hps).2 l hl
      simp [hgap _ hindent, hps]

theorem ContinuedLine.signs (h : ContinuedLine u (k, m) ls) (hu : isUnit u) (hm : m.isPlain)
    (hun : isUnreserved m.written) : ∀ l ∈ ls, l ≠ [] ∧ '\n' ∉ l := by
  have hcalm := (spells_written hm hun).calm
  cases h with
  | whole =>
    intro l hl
    rw [mem_singleton.mp hl]
    have hsigns := hcalm.line_signs (k := k) hu
    exact ⟨hsigns.1, hsigns.2.1⟩
  | list h =>
    have hplain := attributes_plain hm
    have hfeed : ∀ p ∈ _, '\n' ∉ p := fun p hp => (hplain p hp).1.simple.whole.feed
    refine h.signs ?_ fun p hp => hfeed p (by simp_all)
    have hname := (callName_of_isWritable (isWritable_of_isPlain hm)).not_mem (c := '\n') rfl
    simp [hname, feed_not_mem_times hu, hfeed]

theorem spelledAt_continued {lss : List (List Text)} (h : Forall₂ (ContinuedLine u) o lss) (hu : isUnit u)
    (hp : o.isPlain) (hraws : Forall₂ IsEnded lss.flatten raws) :
    Forall₂ (SpelledAt u) o ((Source.joinFrom n [] raws).map (·.2)) := by
  induction h generalizing n raws with
  | nil =>
    cases hraws
    exact .nil
  | @cons x ls o lss hx _ ih =>
    rw [Outline.isPlain, all_cons, Bool.and_eq_true, Bool.and_eq_true] at hp
    obtain ⟨xs, ys, rfl, hxs, hys⟩ := forall₂_append_left hraws
    obtain ⟨n', l, hl, hjoin⟩ := joinFrom_continued hx hu hp.1.1 hp.1.2 hxs ys
    rw [hjoin]
    exact .cons hl (ih hp.2 hys)

theorem Outline.startsAtOne (h : o.trace.Climbs n) (hn : n ≤ 1) : o.StartsAtOne := by
  induction o generalizing n with
  | nil => exact nofun
  | cons x o ih =>
    intro d hd
    by_cases hx : x.1 = 0
    · refine ih (n := x.1 + 1) h.2 (by omega) d ?_
      simpa [Outline.depths, hx] using hd
    · have hle : x.1 ≤ n := h.1
      have hd' : x.1 = d := by simpa [Outline.depths, Nat.pos_of_ne_zero hx] using hd
      omega

namespace Document
variable {tags : TagTable} {files : Files} {path text : Text}

/-- What a document comes to is told by the markup that its lines stand for: the lines up to the first one that
the grammar does not allow are placed. -/
theorem compile_spelled (tags : TagTable) (hread : HasFile files path text) (hu : isUnit u) (hp : o.isPlain)
    (hw : WellIndented o.depths) (hlines : Forall₂ (SpelledAt u) o ((Source.lines text).map (·.2))) :
    ∃ p, ({} : Page).follow tags u (Outline.trace (o.takeWhile (·.2.isAllowed tags))) = .ok p ∧
      (compile tags files path).output = (if o.isAllowed tags then p.output tags u else p.written.reverse) ∧
      (compile tags files path).fault = if o.isAllowed tags then none else some .stopped := by
  have hclimbs := Outline.climbs_trace hw
  have hs : (start tags files path).Awaits tags u o :=
    awaits_start files path (Outline.startsAtOne hclimbs (by omega))
  obtain ⟨n, _, hn⟩ := handle_eq tags hread
  have hsplit : o = o.takeWhile (·.2.isAllowed tags) ++ o.dropWhile (·.2.isAllowed tags) := by simp
  generalize hbefore : o.takeWhile (·.2.isAllowed tags) = before at hsplit ⊢
  generalize hafter : o.dropWhile (·.2.isAllowed tags) = after at hsplit
  have hallowed : Outline.isAllowed tags before := by
    rw [← hbefore]
    exact all_takeWhile
  subst hsplit
  rw [Outline.isPlain, all_append, Bool.and_eq_true] at hp
  rw [Outline.trace_append, Trace.climbs_append] at hclimbs
  obtain ⟨xs, ys, hxy, hxs, hys⟩ := forall₂_append_left hlines
  obtain ⟨s, hrun, hs, hfollow, _⟩ := Compile.lines_accepted (n := n) hu hp.1 hallowed hxs hs hclimbs.1
  rw [← hn] at hrun
  refine ⟨s.page, hfollow, ?_⟩
  cases after with
  | nil =>
    cases hys
    rw [append_nil] at hxy ⊢
    rw [if_pos hallowed, if_pos hallowed, and_comm]
    rw [← hxy] at hrun
    exact compile_of_ok hread hrun (Compile.closeAll_run _ hs.idle (indents_of_isUnit hu))
  | cons x after =>
    obtain ⟨k, m⟩ := x
    have hrefused : m.isAllowed tags = false := by
      have := head?_dropWhile_not (fun x : Nat × Markup Text => x.2.isAllowed tags) (before ++ (k, m) :: after)
      rw [hafter] at this
      simpa using this
    have hno : ¬ Outline.isAllowed tags (before ++ (k, m) :: after) := by
      simp [Outline.isAllowed, hrefused]
    rw [if_neg hno, if_neg hno, and_comm]
    rw [all_cons, Bool.and_eq_true, Bool.and_eq_true] at hp
    obtain _ | ⟨⟨tag, e, htag, he, rfl⟩, _⟩ := hys
    have hk : k ≤ s.page.room := by
      rw [Page.follow_room hfollow]
      exact hclimbs.2.1
    obtain ⟨why, _, hline⟩ := Compile.line_refused (Compile.lineTo n) hs hp.2.1.1 htag hu he (by omega)
      (.inl hrefused)
    exact compile_of_rejected (t := s.learn u k) hread hxy hrun (by rw [hn]; exact hline)

/-- A document of markup gives the same output, and ends in the same way, if any of the commas in its lists of
attributes are followed by a break. -/
theorem compile_continued (tags : TagTable) (u : Text) (o : Outline) (lss : List (List Text)) (terminated : Bool)
    (files files' : Files) (path path' : Text)
    (hread : HasFile files path (sourceText (o.lines u) terminated))
    (hread' : HasFile files' path' (sourceText lss.flatten terminated))
    (hlines : List.Forall₂ (ContinuedLine u) o lss)
    (hu : isUnit u = true) (hp : o.isPlain = true) (hw : WellIndented o.depths) :
    (compile tags files' path').output = (compile tags files path).output ∧
      (compile tags files' path').fault = (compile tags files path).fault := by
  have hplain : List.Forall₂ (SpelledAt u) o ((Source.lines (sourceText (o.lines u) terminated)).map (·.2)) := by
    rw [source_lines (Outline.line_signs hp hu)]
    exact spelledAt_lines hp (forall₂_ended _ _)
  have hcontinued : List.Forall₂ (SpelledAt u) o ((Source.lines (sourceText lss.flatten terminated)).map (·.2)) := by
    have hsigns : ∀ l ∈ lss.flatten, l ≠ [] ∧ '\n' ∉ l := by
      intro l hl
      obtain ⟨ls, hls, hl⟩ := mem_flatten.mp hl
      obtain ⟨x, hx, h⟩ := exists_of_forall₂ hlines hls
      have hshaped := all_eq_true.mp hp x hx
      rw [Bool.and_eq_true] at hshaped
      exact h.signs hu hshaped.1 hshaped.2 l hl
    rw [Source.lines, lines_sourceText hsigns]
    exact spelledAt_continued hlines hu hp (forall₂_ended _ _)
  obtain ⟨p, hp₁, houtput, hfault⟩ := compile_spelled tags hread hu hp hw hplain
  obtain ⟨q, hq, houtput', hfault'⟩ := compile_spelled tags hread' hu hp hw hcontinued
  obtain rfl : p = q := by
    rw [hp₁] at hq
    exact Except.ok.inj hq
  exact ⟨houtput'.trans houtput.symm, hfault'.trans hfault.symm⟩

def gallery : Outline :=
  [(0, .element "div" (some [("id", "a b"), ("lang", "x-y")]) true),
    (1, .element "img" (some [("src", "p 1"), ("alt", []), ("n", "2")]) false), (0, .text "end")]

def galleryLines : List Text :=
  ["div(id=\"a b\", \\ \t", "\t\t  lang=\"x-y\"):", "\timg(src=\"p 1\",\\", "alt=\"\",\t\\", " n=\"2\")",
    "\"end\""]

theorem compile_continued_sample :
    (compile [("*", ⟨.normal, none⟩)] [("b", sourceText galleryLines true)] "b").output =
        (compile [("*", ⟨.normal, none⟩)] [("a", sourceText (gallery.lines "\t") true)] "a").output ∧
      (compile [("*", ⟨.normal, none⟩)] [("b", sourceText galleryLines true)] "b").fault =
        (compile [("*", ⟨.normal, none⟩)] [("a", sourceText (gallery.lines "\t") true)] "a").fault := by
  have hlines : ∃ lss, List.Forall₂ (ContinuedLine "\t") gallery lss ∧ lss.flatten = galleryLines := by
    refine ⟨_, .cons (.list (@Breaks.cut _ _ _ " " " \t" "\t\t  " _ _ (by decide) (by decide) (by decide) .last))
      (.cons (.list (@Breaks.cut _ _ _ [] [] [] _ _ (by decide) (by decide) (by decide)
        (@Breaks.cut _ _ _ "\t" [] " " _ _ (by decide) (by decide) (by decide) .last)))
          (.cons (.whole _ _) .nil)), by decide⟩
  obtain ⟨lss, hlines, hflatten⟩ := hlines
  exact compile_continued [("*", ⟨.normal, none⟩)] "\t" gallery lss true _ _ "a" "b" (by rfl)
    (by rw [hflatten]; rfl) hlines (by decide) (by decide) (by decide)

end Document
end OutlineMarkup
