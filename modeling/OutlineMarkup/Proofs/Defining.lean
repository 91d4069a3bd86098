import OutlineMarkup.Proofs.Routines

/-!
# Defining methods

The lines of a definition leave the page as it is. The header starts a method, and every line of the
body is kept with it, until a line at the left edge comes.
-/

namespace OutlineMarkup
open List Action Text Template Session Bool Definition Procedure Compile

theorem read_sourceLine {u tag e : Text} {k : Nat} (hu : isUnit u) (hs : Solid tag)
    (he : LineEnd e) : read (sourceLine u k tag e) = read tag := by
  have htrim := hs.trim_sourceLine (k := k) hu he
  rw [Definition.read, Definition.read, htrim, hs.trim_eq]

namespace Procedure
variable {p : Procedure} {u : Text}

/-- What a definition has to be: a name of more than underscores, and a body that starts one level
deep and refers to parameters only. -/
@[mk_iff] structure IsDefinable (p : Procedure) : Prop where
  name : p.name.isName = true
  letters : p.name.filter (· != '_') ≠ []
  names : ∀ n ∈ p.names, n.isName = true
  start : ∀ x ∈ p.body.head?, x.1 = 1
  nonempty : p.body ≠ []
  depths : ∀ x ∈ p.body, 1 ≤ x.1
  fillable : ∀ x ∈ p.body, x.2.isSound p.names = true

instance (p : Procedure) : Decidable p.IsDefinable := decidable_of_iff' _ (isDefinable_iff p)

theorem IsWellFormed.isDefinable (h : p.IsWellFormed) : p.IsDefinable := by
  obtain ⟨c, r, hname, hc, hall⟩ := (isTagName_iff p.name).mp h.name
  have hword : isName p.name := by
    rw [hname, isName, and_eq_true, all_eq_true]
    refine ⟨by simp [isNameStart, hc], fun d hd => ?_⟩
    simp [isWordChar, hall d (hname ▸ .tail _ hd)]
  have hkeep : p.name.filter (· != '_') = p.name := by
    rw [filter_eq_self]
    intro d hd
    simpa using ne_of_class (hall d hd) (by decide)
  exact ⟨hword, hkeep.symm ▸ hname ▸ cons_ne_nil c r, h.names, h.start, h.nonempty, h.depths,
    h.sound⟩

def method (p : Procedure) (serial : Nat) : Method :=
  { name := p.name, parameters := p.names.map ('$' :: ·), ownVariables := true, serial }

theorem signature_read (h : p.IsDefinable) : Solid p.signature ∧
      read p.signature = .ok ⟨p.name, p.names.map ('$' :: ·)⟩ := by
  have hname := callName_of_isName h.name
  have hnames := h.names
  rw [signature]
  unfold names at hnames ⊢
  cases hp : p.parameters with
  | none => exact ⟨solid_name hname p.colon, read_name hname p.colon⟩
  | some parameters =>
    rw [hp] at hnames
    refine ⟨solid_callText hname p.colon, read_callText hname p.colon (by simp) fun q hq => CalmItem.simple ?_⟩
    obtain ⟨n, hn, rfl⟩ := mem_map.mp hq
    obtain ⟨_, _, _, _, hall⟩ := isName_iff.mp (hnames n hn)
    refine calmItem_of_forall (by simp) fun c hc => ?_
    rcases mem_cons.mp hc with rfl | hc
    · rfl
    · simp [hall c hc]

theorem mem_signature (h : p.IsDefinable) {c : Char} (hc : c ∈ p.signature) :
    isWordChar c ∨ c ∈ "(), $:".toList := by
  have hname := callName_of_isName h.name
  have hnames := h.names
  rw [signature] at hc
  unfold names at hnames
  cases hp : p.parameters with
  | none =>
    rw [hp] at hc
    rcases mem_append.mp hc with hc | hc
    · exact .inl (hname.chars c hc)
    · exact .inr (by simp [mem_colonText hc])
  | some parameters =>
    rw [hp] at hc hnames
    rcases mem_callText hc with hc | hc | hc | ⟨q, hq, hc⟩ | hc
    · exact .inl (hname.chars c hc)
    · exact .inr ((by decide : ['(', ',', ')'] ⊆ "(), $:") hc)
    · obtain rfl := mem_singleton.mp hc
      exact .inr (by decide)
    · obtain ⟨n, hn, rfl⟩ := mem_map.mp hq
      obtain ⟨_, _, _, _, hall⟩ := isName_iff.mp (hnames n hn)
      rcases mem_cons.mp hc with rfl | hc
      · exact .inr (by decide)
      · exact .inl (hall c hc)
    · exact .inr (by simp [mem_colonText hc])

theorem not_mem_header (h : p.IsDefinable) {c : Char} (hc : c ∈ ['[', '\n', '\\']) : c ∉ p.header := by
  have hclass : isWordChar c = false ∧ c ∉ "(), $:".toList ∧ c ∉ "def ".toList := by
    revert c
    decide
  intro hm
  rcases mem_append.mp hm with hm | hm
  · exact hclass.2.2 hm
  · rcases mem_signature h hm with hw | hw
    · rw [hclass.1] at hw
      exact Bool.noConfusion hw
    · exact hclass.2.1 hw

theorem header_solid (h : p.IsDefinable) : Solid p.header := by
  obtain ⟨c, hc, hb⟩ := (signature_read h).1.last
  refine ⟨⟨'d', rfl, rfl⟩, ⟨c, ?_, hb⟩⟩
  rw [header, getLast?_append, hc]
  rfl

theorem calm_body (hp : p.IsDefinable) (hun : ∀ l ∈ p.lines u, isUnreserved l) :
    ∀ x ∈ p.body, Calm (x.2.map source).written := by
  intro x hx
  apply Item.calm_source (hp.fillable x hx) hp.names
  have hline := hun (u.times x.1 ++ (x.2.map source).written)
    (.tail _ (mem_map.mpr ⟨x, hx, rfl⟩))
  exact isUnreserved_of_isInfix hline (suffix_append _ _).isInfix

theorem line_signs (hp : p.IsDefinable) (hu : isUnit u)
    (hcalm : ∀ x ∈ p.body, Calm (x.2.map source).written) : ∀ l ∈ p.lines u, Unbroken l := by
  intro l hl
  rcases mem_cons.mp hl with rfl | hl
  · exact ⟨(header_solid hp).ne_nil, not_mem_header hp (by simp), not_mem_header hp (by simp)⟩
  · obtain ⟨x, hx, rfl⟩ := mem_map.mp hl
    exact (hcalm x hx).line_signs hu

end Procedure

/-- The session once a header has been read: the level is that of the header. -/
def Session.define (p : Procedure) (s : Session) : Session :=
  { s with
    indentation := { s.indentation with level := 0 }
    defining := some p.name
    methods := s.methods.set p.name (p.method s.serials)
    serials := s.serials + 1 }

namespace Compile
variable {handle : Handler} {s : Session} {u e name tag : Text} {p : Procedure} {m : Method}
  {k : Nat}

theorem startMethod_run (hp : p.IsDefinable) (hfree : s.tags.has p.name = false) (he : LineEnd e) :
    (startMethod (p.header ++ e) 0).runFrom s = (.ok (), s.define p) := by
  obtain ⟨hsolid, hsignature⟩ := signature_read hp
  have hread : read ((p.header ++ e).drop 4) = .ok ⟨p.name, p.names.map ('$' :: ·)⟩ := by
    have hline := read_sourceLine (u := " ") (k := 0) rfl hsolid he
    rw [sourceLine, times_zero, nil_append, hsignature] at hline
    exact hline
  have hname := hp.name
  have hletters : isAlphanumeric (p.name.filter (· != '_')) := by
    refine (isAlphanumeric_iff _).mpr ⟨hp.letters, fun d hd => ?_⟩
    obtain ⟨hd, hne⟩ := mem_filter.mp hd
    have hword := (callName_of_isName hname).chars d hd
    simpa [isWordChar, bne_iff_ne.mp hne] using hword
  simp only [startMethod, setLevel, runFrom_bind, runFrom_modify, hread, runFrom_liftM, define, method]
  cases hcut : p.name with
  | nil =>
    rw [hcut] at hname
    cases hname
  | cons c r =>
    rw [hcut, isName, Bool.and_eq_true] at hname
    rw [hcut] at hfree hletters
    simp only [hname.1, hletters, hfree, defineMethod, runFrom_bind, runFrom_get,
      runFrom_modify, Bool.not_true, Bool.or_self, Bool.false_eq_true, if_false]
    rfl

theorem line_header (handle : Handler) (hp : p.IsDefinable)
    (hun : isUnreserved p.header) (hfree : s.tags.has p.name = false) (he : LineEnd e)
    (hu : isUnit u) (hreads : s.Reads u 0) (hblock : s.block = none)
    (hverbatims : s.verbatims = []) (hloops : s.loops = []) :
    (line handle (p.header ++ e)).runFrom s = (.ok (), s.define p) := by
  have hsolid := header_solid hp
  have hzero : sourceLine u 0 p.header e = p.header ++ e := rfl
  have hexpand : Shorthand.expand (p.header ++ e) = .ok (p.header ++ e) := by
    refine shorthand_eq_self ?_
    simp [not_mem_header hp (c := '[') (by simp), he.not_mem (c := '[') (by decide)]
  have hline : (line handle (sourceLine u 0 p.header e)).runFrom s =
      (plainLine handle 0 (u.times 0) (sourceLine u 0 p.header e)).runFrom (s.learn u 0) :=
    line_eq_plainLine hu hreads hblock hverbatims hsolid (by simp [header]) he hexpand
  have htrim : (p.header ++ e).trim = p.header :=
    trim_append_solid (isBlank_of_mem_times (k := 0) hu) he.isBlank hsolid
  have hdepth : (depthOf (p.header ++ e)).runFrom s = (.ok 0, s) := depthOf_run (k := 0) hu hreads rfl rfl
  have hstart : isMethodStart (p.header ++ e) := rfl
  have hloop : isLoopStart p.header = false := rfl
  have hrun := startMethod_run hp hfree he
  rw [hzero] at hline
  rw [hline]
  change (plainLine handle 0 [] (p.header ++ e)).runFrom s = _
  simp [plainLine, runFrom_bind, htrim, declaresVerbatim_eq_false hun, hloops, hloop, hstart, methodLine, hdepth, hrun]

theorem addMethodLine_run (h : Calm tag) (he : LineEnd e)
    (hu : isUnit u) (hunit : s.indentation.unit = some u) (hblock : s.block = none)
    (hdrop : s.dropMarks = false) (hdefining : s.defining = some name)
    (hm : s.methods.get? name = some m) (depth : Nat) :
    (addMethodLine (sourceLine u (k + 1) tag e) depth).runFrom s = (.ok (), { s with
        methods := s.methods.set name
          ({ m with lines := m.lines ++ [⟨false, sourceLine u k tag e, s.methodMarks⟩] }) }) := by
  have hcut : (sourceLine u (k + 1) tag e).drop u.length = sourceLine u k tag e := by
    rw [sourceLine, times_succ, append_assoc, drop_left]
    rfl
  simp [addMethodLine, updateMethod, runFrom_bind, hblock, hdrop, hunit, hdefining, hcut, hm, h.addLine hu he]

theorem line_kept (handle : Handler)
    (h : Calm tag) (he : LineEnd e) (hu : isUnit u) (hreads : s.Reads u (k + 1)) (hblock : s.block = none)
    (hverbatims : s.verbatims = []) (hloops : s.loops = []) (hdrop : s.dropMarks = false)
    (hdefining : s.defining = some name) (hm : s.methods.get? name = some m) :
    (line handle (sourceLine u (k + 1) tag e)).runFrom s = (.ok (), { s.learn u (k + 1) with
        methods := s.methods.set name
          ({ m with lines := m.lines ++ [⟨false, sourceLine u k tag e, s.methodMarks⟩] }) }) := by
  rw [line_eq_plainLine hu hreads hblock hverbatims h.solid (h.head?_ne rfl (by decide)) he
    (h.expand_sourceLine hu he)]
  have hunit : (s.learn u (k + 1)).indentation.unit = some u := by simp [learn]
  have hdepth : (depthOf (sourceLine u (k + 1) tag e)).runFrom (s.learn u (k + 1)) =
      (.ok (k + 1), s.learn u (k + 1)) := depthOf_learnt h.solid hu hreads
  have hadd := addMethodLine_run (s := s.learn u (k + 1)) (k := k) h he hu hunit hblock hdrop hdefining
    hm (k + 1)
  have hisdef : (s.learn u (k + 1)).isDefining := by
    simp [isDefining, learn, hdefining]
  have hblock' : (s.learn u (k + 1)).block = none := hblock
  have hloops' : (s.learn u (k + 1)).loops = [] := hloops
  simp only [plainLine, methodLine, runFrom_bind, runFrom_get, h.trim_sourceLine hu he,
    h.declaresVerbatim, hisdef, h.isLoopStart, hdepth, h.isMethodStart_sourceLine hu he,
    Nat.succ_ne_zero, hblock', hloops', hadd, Option.all_none, isEmpty_nil, Bool.not_true,
    Bool.or_self, Bool.and_false, Bool.true_or, Bool.not_false, Bool.false_eq_true, if_false, if_true,
    runFrom_pure]
  rfl

theorem lines_kept (handle : Handler) {body : Body} {xs : List Text}
    (hxs : Forall₂ IsEnded (body.map fun x => u.times x.1 ++ (x.2.map source).written) xs)
    (hcalm : ∀ x ∈ body, Calm (x.2.map source).written) (hdepths : ∀ x ∈ body, 1 ≤ x.1)
    (hu : isUnit u) (hreads : ∀ x ∈ body.head?, s.Reads u x.1) (hblock : s.block = none)
    (hverbatims : s.verbatims = []) (hloops : s.loops = []) (hdrop : s.dropMarks = false)
    (hdefining : s.defining = some name) (hm : s.methods.get? name = some m) :
    ∃ ls methods, (xs.forM (line handle)).runFrom s =
        (.ok (), { s.learn u body.length with methods := methods }) ∧ Forall₂ (Keeps u) body ls ∧
      methods.get? name = some { m with lines := m.lines ++ ls } ∧
      ∀ other, other ≠ name → methods.get? other = s.methods.get? other := by
  induction body generalizing s m xs with
  | nil =>
    cases hxs
    refine ⟨[], s.methods, rfl, .nil, ?_, fun _ _ => rfl⟩
    rw [hm, append_nil]
  | cons x body ih =>
    obtain ⟨j, i⟩ := x
    obtain ⟨k, rfl⟩ : ∃ k, j = k + 1 := ⟨j - 1, by have := hdepths _ mem_cons_self; omega⟩
    rcases hxs with _ | ⟨⟨e, he, rfl⟩, hxs⟩
    have hline := line_kept handle (hcalm _ mem_cons_self) he hu (hreads _ rfl) hblock
      hverbatims hloops hdrop hdefining hm
    let l : BodyLine := ⟨false, sourceLine u k (i.map source).written e, s.methodMarks⟩
    let next : Session := { s.learn u (k + 1) with
      methods := s.methods.set name ({ m with lines := m.lines ++ [l] }) }
    have hunit : next.indentation.unit = some u := by simp [next, learn]
    obtain ⟨ls, methods, hrun, hkeeps, hget, hother⟩ := ih (s := next) hxs
      (forall_mem_cons.mp hcalm).2
      (forall_mem_cons.mp hdepths).2 (fun y _ => .inl hunit)
      hblock hverbatims hloops hdrop hdefining (Table.get?_set_self _ _ _)
    refine ⟨l :: ls, methods, ?_, .cons ⟨rfl, e, he, rfl⟩ hkeeps, ?_, fun other hne => ?_⟩
    · have happ : u.times (k + 1) ++ (i.map source).written ++ e =
          sourceLine u (k + 1) (i.map source).written e := by
        rw [sourceLine, append_assoc]
      rw [runFrom_forM_cons, happ, hline]
      refine hrun.trans ?_
      simp [next, learn]
    · rw [hget]
      simp
    · rw [hother other hne, Table.get?_set_ne _ hne]

end Compile

theorem Compile.lines_defined (handle : Handler) {p : Procedure} {s : Session} {u : Text}
    (hu : isUnit u) (hp : p.IsDefinable) (hfree : s.tags.has p.name = false) (hheader : isUnreserved p.header)
    (hcalm : ∀ x ∈ p.body, Calm (x.2.map source).written)
    (hunit : s.indentation.unit = some u ∨ s.indentation.unit = none) (hblock : s.block = none)
    (hverbatims : s.verbatims = []) (hloops : s.loops = []) (hdrop : s.dropMarks = false)
    {xs : List Text} (hxs : Forall₂ IsEnded (p.lines u) xs) :
    ∃ ls methods, (xs.forM (line handle)).runFrom s =
        (.ok (), { (s.define p).learn u p.body.length with methods := methods }) ∧
      Forall₂ (Keeps u) p.body ls ∧ methods.get? p.name = some { p.method s.serials with lines := ls } ∧
      ∀ name, name ≠ p.name → methods.get? name = s.methods.get? name := by
  rw [Procedure.lines] at hxs
  rcases hxs with _ | ⟨⟨e, he, rfl⟩, hxs⟩
  have hrun := line_header handle hp hheader hfree he hu (hunit.imp id fun h => ⟨h, Nat.zero_le _⟩)
    hblock hverbatims hloops
  have hhead : ∀ x ∈ p.body.head?, (s.define p).Reads u x.1 := fun x hx =>
    hunit.imp id fun h => ⟨h, (hp.start x hx).le⟩
  obtain ⟨ls, methods, hbody, hkeeps, hget, hother⟩ := lines_kept (s := s.define p)
    handle hxs hcalm hp.depths hu hhead hblock hverbatims hloops hdrop rfl
    (Table.get?_set_self _ _ _)
  refine ⟨ls, methods, ?_, hkeeps, hget, fun name hname =>
    (hother name hname).trans (Table.get?_set_ne _ hname _)⟩
  rw [runFrom_forM_cons, hrun]
  exact hbody

/-! ## Definitions one after another -/

namespace Program

/-- The procedures have been defined and nothing has been placed yet. -/
structure Collects (tags : TagTable) (u : Text) (ps : List Procedure) (s : Session) : Prop where
  table : s.tags = tags
  block : s.block = none
  verbatims : s.verbatims = []
  loops : s.loops = []
  dropMarks : s.dropMarks = false
  page : s.page = {}
  unit : s.indentation.unit = some u ∨ (s.indentation.unit = none ∧ ps = [])
  holds : (routines ⟨ps, []⟩).Holds u s.methods
  serials : ∀ name m, s.methods.get? name = some m → m.serial < s.serials

variable {tags : TagTable} {u : Text} {ps : List Procedure} {p : Procedure} {s : Session}
  {handle : Handler} {xs : List Text}

theorem routines_concat (hnew : p.name ∉ ps.map (·.name)) :
    routines ⟨ps ++ [p], []⟩ = (routines ⟨ps, []⟩).set p.name p.routine := by
  funext name
  rw [routines, Routines.set, routines, find?, find?, find?_append]
  by_cases hname : name = p.name
  · have hnone : ps.find? (·.name == name) = none := by
      rw [find?_eq_none]
      intro q hq heq
      exact hnew (mem_map.mpr ⟨q, hq, by simpa [hname] using heq⟩)
    rw [hnone, if_pos hname]
    simp [hname]
  · have hother : [p].find? (·.name == name) = none := by simpa using Ne.symm hname
    rw [hother, if_neg hname, Option.or_none]

theorem Collects.procedure (hs : Collects tags u ps s) (handle : Handler) (hu : isUnit u) (hp : p.IsDefinable)
    (hfree : tags.has p.name = false) (hnew : p.name ∉ ps.map (·.name)) (hheader : isUnreserved p.header)
    (hcalm : ∀ x ∈ p.body, Calm (x.2.map source).written) (hxs : Forall₂ IsEnded (p.lines u) xs) :
    ∃ s', (xs.forM (line handle)).runFrom s = (.ok (), s') ∧ Collects tags u (ps ++ [p]) s' := by
  obtain ⟨ls, methods, hrun, hkeeps, hget, hsame⟩ := lines_defined handle hu hp
    (by rwa [hs.table]) hheader hcalm (hs.unit.imp id And.left) hs.block hs.verbatims hs.loops
    hs.dropMarks hxs
  have hpage : (s.define p).page = {} := by
    change ({ s.page with level := 0 } : Page) = {}
    rw [hs.page]
  refine ⟨_, hrun, ?_⟩
  refine ⟨hs.table, hs.block, hs.verbatims, hs.loops, hs.dropMarks, hpage, .inl ?_, ?_, ?_⟩
  · have hlength : p.body.length ≠ 0 := by simpa using hp.nonempty
    simp [learn, hlength]
  · rw [routines_concat hnew]
    exact hs.holds.insert hget ⟨rfl, rfl, hkeeps⟩ hsame
      fun _ name m _ hm _ => (hs.serials name m hm).ne
  · intro name m hm
    by_cases hname : name = p.name
    · rw [hname] at hm
      have hm' : methods.get? p.name = some m := hm
      rw [hget] at hm'
      cases hm'
      exact Nat.lt_succ_self _
    · have hm' : methods.get? name = some m := hm
      rw [hsame name hname] at hm'
      exact (hs.serials name m hm').trans (Nat.lt_succ_self _)

theorem Collects.procedures (hs : Collects tags u ps s) (handle : Handler)
    (hu : isUnit u) {qs : List Procedure}
    (hq : ∀ q ∈ qs, q.IsDefinable ∧ tags.has q.name = false ∧ isUnreserved q.header ∧
      ∀ x ∈ q.body, Calm (x.2.map source).written) (hnew : ((ps ++ qs).map (·.name)).Nodup)
    (hxs : Forall₂ IsEnded (qs.flatMap (·.lines u)) xs) :
    ∃ s', (xs.forM (line handle)).runFrom s = (.ok (), s') ∧ Collects tags u (ps ++ qs) s' := by
  induction qs generalizing ps s xs with
  | nil =>
    cases hxs
    exact ⟨s, rfl, by rwa [append_nil]⟩
  | cons q qs ih =>
    rw [flatMap_cons] at hxs
    obtain ⟨ys, zs, rfl, hys, hzs⟩ := forall₂_append_left hxs
    obtain ⟨hwf, hfree, hheader, hcalm⟩ := hq q mem_cons_self
    have hcut : ps ++ q :: qs = (ps ++ [q]) ++ qs := by simp
    have hname : q.name ∉ ps.map (·.name) := by
      rw [map_append, nodup_append] at hnew
      exact fun hm => hnew.2.2 q.name hm q.name mem_cons_self rfl
    obtain ⟨s₁, hrun₁, hs₁⟩ := hs.procedure handle hu hwf hfree hname hheader hcalm hys
    obtain ⟨s₂, hrun₂, hs₂⟩ := ih hs₁ (forall_mem_cons.mp hq).2
      (by rwa [← hcut]) hzs
    refine ⟨s₂, ?_, by rwa [hcut]⟩
    rw [runFrom_forM_append, hrun₁]
    exact hrun₂

theorem Collects.idle (hs : Collects tags u ps s) : s.endDefinition.Idle tags u := by
  have hlevel : s.indentation.level = 0 := congrArg Page.level hs.page
  have hroom : s.endDefinition.page.room = 0 := by
    change s.page.room = 0
    rw [hs.page]
    rfl
  refine ⟨hs.table, hs.block, hs.verbatims, hs.loops, rfl, ?_, ?_, ?_⟩
  · exact hs.unit.imp id fun h => ⟨h.1, by omega⟩
  · change s.page.Regular
    rw [hs.page]
    exact ⟨Int.le_refl _, fun _ => rfl⟩
  · change s.page.Known s.tags
    rw [hs.page]
    exact ⟨by simp, by simp⟩

end Program

namespace Compile
variable {handle : Handler} {tags : TagTable} {u tag e : Text} {s : Session}

theorem plainLine_ends_definition (handle : Handler) {source : Text}
    (hdepth : (depthOf source).runFrom s = (.ok 0, s)) (hverbatim : declaresVerbatim source.trim = false)
    (hloop : isLoopStart source.trim = false) (hstart : isMethodStart source = false)
    (hloops : s.loops = []) (depth : Nat) (space : Text) : (plainLine handle depth space source).runFrom s =
      (plainLine handle depth space source).runFrom s.endDefinition := by
  cases hdefining : s.defining with
  | none => rw [endDefinition_eq hdefining]
  | some name =>
    have hisdef := isDefining_eq_true hdefining
    have hnot : s.endDefinition.isDefining = false := rfl
    have hempty : s.loops.isEmpty := by rw [hloops]; rfl
    simp only [plainLine, methodLine, runFrom_bind, runFrom_get, hverbatim, hisdef, hnot,
      hloop, hempty, hdepth, hstart, runFrom_modify, Bool.not_true, Bool.not_false, Bool.false_and,
      Bool.true_and, Bool.or_self, Bool.true_or, Bool.false_eq_true, if_false, if_true, runFrom_pure]

theorem line_at_edge (handle : Handler) (h : Calm tag) (hu : isUnit u) (he : LineEnd e)
    (hreads : s.Reads u 0) (hblock : s.block = none) (hverbatims : s.verbatims = []) (hloops : s.loops = []) :
    (line handle (sourceLine u 0 tag e)).runFrom s =
      (markupLine handle 0 [] tag).runFrom s.endDefinition := by
  have hdepth : (depthOf (sourceLine u 0 tag e)).runFrom s = (.ok 0, s) :=
    depthOf_sourceLine h.solid hu hreads
  rw [line_eq_plainLine hu hreads hblock hverbatims h.solid (h.head?_ne rfl (by decide)) he
    (h.expand_sourceLine hu he)]
  change (plainLine handle 0 [] (sourceLine u 0 tag e)).runFrom s = _
  have htrim := h.trim_sourceLine hu he (k := 0)
  rw [plainLine_ends_definition handle hdepth (by rw [htrim]; exact h.declaresVerbatim)
    (by rw [htrim]; exact h.isLoopStart) (h.isMethodStart_sourceLine hu he) hloops,
    plainLine_calm (s := s.endDefinition) h hu he hloops rfl]

theorem line_ends_definition (handle : Handler)
    (hi : s.endDefinition.Idle tags u) (h : Calm tag) (hu : isUnit u) (he : LineEnd e) :
    (line handle (sourceLine u 0 tag e)).runFrom s =
      (line handle (sourceLine u 0 tag e)).runFrom s.endDefinition := by
  have hreads : s.Reads u 0 := hi.reads (Nat.zero_le _)
  have hedge := line_at_edge handle h hu he hreads hi.block hi.verbatims hi.loops
  rw [hedge, line_eq_markupLine h hu he hi hreads]
  rfl

theorem closeAll_ends_definition (hi : s.endDefinition.Idle tags u) :
    (closeAll handle).runFrom s = (closeAll handle).runFrom s.endDefinition := by
  have hdepth : (depthOf endMark).runFrom s = (.ok 0, s) := rfl
  have hstart : isMethodStart endMark = false := rfl
  cases hdefining : s.defining with
  | none => rw [endDefinition_eq hdefining]
  | some name =>
    have hisdef := isDefining_eq_true hdefining
    have hmethod : (discard (methodLine handle endMark)).runFrom s = (.ok (), s.endDefinition) := by
      rw [runFrom_discard]
      simp only [methodLine, runFrom_bind, hdepth, hstart, false_eq_true, if_false, if_true,
        runFrom_modify, runFrom_pure]
    have hnot : s.endDefinition.isDefining = false := rfl
    have hblock : s.block = none := hi.block
    have hblock' : s.endDefinition.block = none := hi.block
    generalize s.endDefinition = t at *
    simp [closeAll, runFrom_bind, hblock', hisdef, hmethod, hnot, hblock]

end Compile
end OutlineMarkup
