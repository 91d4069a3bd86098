import OutlineMarkup.Proofs.Imports
import OutlineMarkup.Proofs.Portions
import OutlineMarkup.Proofs.Rendering

/-!
# Imports and inclusion

A module is compiled into the session of the document that imports it, and at its end all elements
are closed, those of the document too, while the level stays. The lines after the import go on from
there. The module says for which documents that works at all, and for which it gives the output that
the document has if the text of the module stands in the place of the import.
-/

namespace OutlineMarkup
open List Compile Outline Forest
variable {tags : TagTable} {u : Text} {s : Session} {st : Standing}

open Portion (Reached place lines_signs line)

/-- Lines may go on where everything has been closed: no line is as near to the left edge as one that
was closed, and those were not to be closed, neither before the lines nor after them. -/
def Standing.Admits (tags : TagTable) (st : Standing) (o : Outline) : Prop :=
  (∀ y ∈ o, st.room ≤ y.1) ∧
    (o = [] ∨ (∀ y ∈ st.opened, y.2.name? = none) ∨
      (∃ x ∈ st.opened.head?, x.2.isSingle tags = true) ∧ ∃ y ∈ o.getLast?, y.2.isSingle tags = true)

instance (tags : TagTable) (st : Standing) (o : Outline) : Decidable (st.Admits tags o) :=
  inferInstanceAs (Decidable (_ ∧ _))

/-! ## Closed pages -/

namespace Page
variable {tags : TagTable} {u : Text} {st : Standing} {p q z : Page} {o : Outline}

def shut (tags : TagTable) (u : Text) (p : Page) : Page := (pop tags u)^[p.elements.length] p

theorem shut_elements : (p.shut tags u).elements = [] := by rw [shut, pops_elements, drop_length]

theorem shut_of_nil (h : p.elements = []) : p.shut tags u = p := by
  rw [shut, h]
  rfl

theorem shut_room : (p.shut tags u).room = p.room := by rw [room, room, shut, pops_fresh, pops_level]

theorem Regular.shut (hp : p.Regular) : (p.shut tags u).Regular := by
  refine ⟨?_, ?_⟩
  · rw [Page.shut, pops_level]
    exact hp.nonneg
  · rw [Page.shut, pops_level, pops_fresh]
    exact hp.fresh

theorem follow_emptied (hu : isUnit u) (hp : p.Regular) (hempty : p.elements = [])
    (hdepths : ∀ x ∈ o, p.room ≤ x.1) (hc : o.trace.Climbs p.room) (ho : ∀ x ∈ o, x.2.check tags = .ok ()) :
    ∃ d, p.follow tags u o.trace = .ok d ∧ (d.shut tags u).written =
        (((ofOutline o).printing tags p.room).text u).reverse ++ p.written ∧
      ∀ y ∈ o.getLast?, d.lastElement = y.2.name? := by
  have hforest : (ofOutline o).outline p.room = o := outline_ofOutline o _ hdepths hc
  have hraised : p.Raised p.room := ⟨hp, by rw [hempty]; exact Nat.zero_add _⟩
  have hsteps : ∀ x ∈ o.trace, p.room ≤ x.1 := by
    intro x hx
    obtain ⟨y, hy, rfl⟩ := mem_map.mp hx
    exact hdepths y hy
  -- Entries that are never closed make the page balanced and do not change what is written.
  let below : List (Option Text) := replicate p.room none
  have hb : (p.under below).Balanced := by
    refine ⟨⟨hp.nonneg, hp.fresh⟩, ?_⟩
    change (p.elements ++ below).length = p.room
    rw [hempty, nil_append, length_replicate]
  obtain ⟨r, hr, _, _, hwritten, hlast⟩ := follow_printing hu (ofOutline o) p.room
    (p.under below) hb (Nat.le_refl _) (by rw [hforest]; exact ho)
  rw [hforest, hraised.follow_under hsteps hc] at hr
  cases hd : p.follow tags u o.trace with
  | error f =>
    rw [hd] at hr
    cases hr
  | ok d =>
    rw [hd] at hr
    cases hr
    have hroom : d.room - p.room = d.elements.length := by
      have hlength := (hraised.of_follow hc hd).2.length
      omega
    refine ⟨d, rfl, ?_, fun y hy => ?_⟩
    · have hclose : (d.under below).closeTo tags u p.room = (d.shut tags u).under below := by
        change (pop tags u)^[d.room - p.room] _ = _
        rw [hroom, pops_under (Nat.le_refl _)]
        rfl
      have hself : (p.under below).closeTo tags u p.room = p.under below := closeTo_room
      rw [hclose, hself] at hwritten
      exact hwritten
    · rw [last?_ofOutline, Option.mem_def.mp hy] at hlast
      exact hlast.2

theorem Stands.written_ne_of_isNormal (hq : q.Stands u st) {k : Nat} {m : Markup Text}
    (hhead : st.opened.head? = some (k, m)) (hk : k + 1 = st.room) (hm : m.isNormal tags)
    {after : Text} (hafter : after ≠ []) (hz : z.written = after ++ q.written) (n : Nat) (w : Text) :
    ((pop tags u)^[n] z).written ≠ w ++ (q.shut tags u).written := by
  obtain ⟨rest, hopened⟩ := head?_eq_some_iff.mp hhead
  obtain ⟨hlast, before, hwritten⟩ := hq.last _ hhead
  have helements : q.elements = m.ending (u.times k) :: entries u rest := by
    rw [hq.elements, hopened]
    rfl
  have hlevel : q.level = k := by
    have hroom := hq.room
    rw [Page.room] at hroom
    split at hroom
    · omega
    · omega
  obtain ⟨line, hline, hpop⟩ := pop_short hm hlevel hlast helements hwritten
  rw [shut, helements, length_cons, Function.iterate_succ_apply]
  exact written_pops_ne (hline ▸ hz) hafter hpop n _ w

section Standing
variable (hu : isUnit u) (hq : q.Stands u st)
include hu hq

theorem Stands.follow_shut (hdepths : ∀ x ∈ o, st.room ≤ x.1) (hc : o.trace.Climbs st.room)
    (ho : ∀ x ∈ o, x.2.check tags = .ok ()) :
    ∃ d d' z, (q.shut tags u).follow tags u o.trace = .ok d ∧ q.follow tags u o.trace = .ok d' ∧
      d.output tags u = ((((ofOutline o).printing tags st.room).text u).reverse ++
        (q.shut tags u).written).reverse ∧
      d'.output tags u = ((pop tags u)^[q.elements.length] z).written.reverse ∧ z.elements = q.elements ∧
      z.written = (((ofOutline o).printing tags st.room).text u).reverse ++ q.written ∧
      ∀ y ∈ o.getLast?, z.lastElement = y.2.name? := by
  rw [← hq.room] at hdepths hc ⊢
  have hsteps : ∀ x ∈ o.trace, q.room ≤ x.1 := by
    intro x hx
    obtain ⟨y, hy, rfl⟩ := mem_map.mp hx
    exact hdepths y hy
  obtain ⟨d, hd, hdw, _⟩ := follow_emptied hu (hq.toRegular.shut : (q.shut tags u).Regular) shut_elements
    (by rwa [shut_room]) (by rwa [shut_room]) ho
  rw [shut_room] at hdw
  let c : Page := { q with elements := [] }
  have hcr : c.Regular := ⟨hq.nonneg, hq.fresh⟩
  have hraised : c.Raised q.room := ⟨hcr, Nat.zero_add _⟩
  have hunder : c.under q.elements = q := rfl
  obtain ⟨e, he, hew, helast⟩ := follow_emptied (p := c) hu hcr rfl hdepths hc ho
  refine ⟨d, e.under q.elements, (e.shut tags u).under q.elements, hd, ?_, ?_, ?_, ?_, hew, ?_⟩
  · rw [← hunder, hraised.follow_under hsteps hc, he]
    rfl
  · rw [← hdw]
    rfl
  · have hlength : (e.under q.elements).elements.length = q.elements.length + e.elements.length := by
      simp [under, Nat.add_comm]
    rw [output, hlength, Function.iterate_add_apply, pops_under (Nat.le_refl _)]
    rfl
  · change (e.shut tags u).elements ++ _ = _
    rw [shut_elements, nil_append]
  · intro y hy
    change ((pop tags u)^[_] e).lastElement = _
    rw [pops_lastElement, helast y hy]

/-- Entries that are closed after a forest leave what they leave when they are closed before it exactly
if they are not to be closed. -/
theorem Stands.pops_eq_shut_iff (hlimit : st.room ≤ st.limit) {F : Forest} {l : Markup Text}
    (hF : ∀ x ∈ F.outline st.room, x.2.isPlain) (hl : F.last? = some l)
    (hlast : z.lastElement = l.name?) (helements : z.elements = q.elements)
    (hz : z.written = ((F.printing tags st.room).text u).reverse ++ q.written) :
    ((pop tags u)^[q.elements.length] z).written =
        ((F.printing tags st.room).text u).reverse ++ (q.shut tags u).written ↔
      (∀ y ∈ st.opened, y.2.name? = none) ∨ (∃ x ∈ st.opened.head?, x.2.isSingle tags) ∧ l.isSingle tags := by
  cases hopened : st.opened with
  | nil =>
    have hnil : q.elements = [] := by rw [hq.elements, hopened]; rfl
    rw [hnil, shut_of_nil hnil]
    exact iff_of_true hz (.inl fun y hy => absurd hy not_mem_nil)
  | cons x rest =>
    have hhead : st.opened.head? = some x := by rw [hopened]; rfl
    have hdepth : x.1 + 1 = st.room := by
      rcases hq.limit with h | ⟨_, h⟩
      · have hnil := hq.blank (by omega)
        rw [hopened] at hnil
        cases hnil
      · exact h x hhead
    have hmark : (∃ y ∈ (x :: rest).head?, y.2.isSingle tags) ↔ x.2.isSingle tags := by simp
    rw [hmark, ← hopened]
    by_cases hnormal : x.2.isNormal tags
    · have hprinted : ((F.printing tags st.room).text u).reverse ≠ [] := by
        obtain ⟨a, b, hab, hnot, _⟩ := printing_head tags hu hF hl
        intro hnil
        rw [reverse_eq_nil_iff, hab, append_eq_nil_iff] at hnil
        have hopens := hnot "</"
        rw [hnil.1] at hopens
        cases hopens
      refine iff_of_false (hq.written_ne_of_isNormal hhead hdepth hnormal hprinted hz _ _) ?_
      rintro (hnone | ⟨hsingle, _⟩)
      · have hname := hnone x (by rw [hopened]; exact mem_cons_self)
        obtain ⟨k, m⟩ := x
        cases m with
        | text t => cases hnormal
        | element name attributes colon => cases hname
      · rw [Markup.isNormal_of_isSingle hsingle] at hnormal
        cases hnormal
    · rw [Bool.not_eq_true] at hnormal
      have hshut := pops_written (p := q) (u := u) (hq.last x hhead).1 hnormal q.elements.length
      rw [take_length, hq.elements] at hshut
      rw [shut, hq.elements, hshut]
      exact pops_eq_iff hu hF hl hlast (helements.trans hq.elements) hz

theorem Stands.shut_follow_iff (hc : o.trace.Climbs st.limit) (ho : ∀ x ∈ o, x.2.check tags = .ok ()) :
    (∃ d, (q.shut tags u).follow tags u o.trace = .ok d) ↔ ∀ x ∈ o, st.room ≤ x.1 := by
  have hclimbs : o.trace.Climbs st.room := hc.mono hq.limit_le
  constructor
  · rintro ⟨d, hd⟩ x hx
    have hraised : (q.shut tags u).Raised st.room := by
      refine ⟨hq.toRegular.shut, ?_⟩
      rw [shut_elements, shut_room, hq.room]
      exact Nat.zero_add _
    have hclimbs' : o.trace.Climbs (q.shut tags u).room := by rwa [shut_room, hq.room]
    exact (hraised.of_follow hclimbs' hd).1 (x.1, some x.2) (mem_map.mpr ⟨x, hx, rfl⟩)
  · intro hdepths
    obtain ⟨d, _, _, hd, _⟩ := hq.follow_shut hu hdepths hclimbs ho
    exact ⟨d, hd⟩

/-- They come out as on the page itself exactly if the document admits them. -/
theorem Stands.shut_output_iff (hc : o.trace.Climbs st.limit) (hs : o.isPlain)
    (ho : ∀ x ∈ o, x.2.check tags = .ok ()) {d' : Page} (hd' : q.follow tags u o.trace = .ok d') :
    (∃ d, (q.shut tags u).follow tags u o.trace = .ok d ∧ d.output tags u = d'.output tags u) ↔
      st.Admits tags o := by
  have hiff := hq.shut_follow_iff hu hc ho
  by_cases hdepths : ∀ x ∈ o, st.room ≤ x.1
  swap
  · refine iff_of_false ?_ fun h => hdepths h.1
    rintro ⟨d, hd, _⟩
    exact hdepths (hiff.mp ⟨d, hd⟩)
  have hclimbs : o.trace.Climbs st.room := hc.mono hq.limit_le
  obtain ⟨d, r, z, hd, hr, hout, hout', helements, hz, hlast⟩ := hq.follow_shut hu hdepths hclimbs ho
  obtain rfl : d' = r := Except.ok.inj (hd'.symm.trans hr)
  have hsame : (∃ e, (q.shut tags u).follow tags u o.trace = .ok e ∧ e.output tags u = d'.output tags u) ↔
      d'.output tags u = d.output tags u := by
    constructor
    · rintro ⟨e, he, heq⟩
      rw [← heq, Except.ok.inj (hd.symm.trans he)]
    · exact fun h => ⟨d, hd, h.symm⟩
  rw [hsame, Standing.Admits, and_iff_right hdepths]
  cases o with
  | nil =>
    cases hd
    cases hd'
    refine iff_of_true ?_ (.inl rfl)
    rw [output, output, shut_elements]
    rfl
  | cons x o =>
    obtain ⟨y, hy⟩ : ∃ y, (x :: o).getLast? = some y := ⟨_, getLast?_cons⟩
    have hforest : (ofOutline (x :: o)).outline st.room = x :: o := outline_ofOutline _ _ hdepths hclimbs
    have hshaped : ∀ w ∈ (ofOutline (x :: o)).outline st.room, w.2.isPlain := by
      rw [hforest]
      intro w hw
      have hw := all_eq_true.mp hs w hw
      rw [Bool.and_eq_true] at hw
      exact hw.1
    have hflast : (ofOutline (x :: o)).last? = some y.2 := by
      rw [last?_ofOutline, hy]
      rfl
    have hlimit : st.room ≤ st.limit := (hdepths x mem_cons_self).trans hc.1
    rw [hout, hout', reverse_inj, hq.pops_eq_shut_iff hu hlimit hshaped hflast (hlast y hy) helements hz]
    simp [hy]

end Standing

end Page
/-! ## Importing a module -/

namespace Compile
variable {handle : Handler} {tags : TagTable} {u name e text : Text} {s t v : Session}

theorem line_import (handle : Handler) (hs : s.endDefinition.Idle tags u)
    (hu : isUnit u) (hname : isModuleName name) (hun : isUnreserved (importText name)) (he : LineEnd e) :
    (line handle (importText name ++ e)).runFrom s =
      (importModule handle name).runFrom s.endDefinition := by
  have hreads : s.Reads u 0 := hs.reads (Nat.zero_le _)
  have hhash : (importText name).head? ≠ some '#' := fun h => absurd (Option.some.inj h) (by decide)
  have hline : (line handle (sourceLine u 0 (importText name) e)).runFrom s =
      (plainLine handle 0 [] (sourceLine u 0 (importText name) e)).runFrom s :=
    line_eq_plainLine hu hreads hs.block hs.verbatims (importText_solid hname) hhash he
      (importText_expand hname he)
  have hdepth : (depthOf (sourceLine u 0 (importText name) e)).runFrom s = (.ok 0, s) :=
    depthOf_sourceLine (importText_solid hname) hu hreads
  have hsource : sourceLine u 0 (importText name) e = importText name ++ e := rfl
  have hverbatim := declaresVerbatim_eq_false hun
  have hplain : plainLine handle 0 [] = plainLineBy handle (compileModule handle) 0 [] := rfl
  rw [hsource] at hline hdepth
  rw [hline, plainLine_ends_definition handle hdepth (by rwa [importText_trim hname he])
    (importText_isLoopStart hname he) importText_isMethodStart hs.loops, hplain,
    plainLineBy_import (s := s.endDefinition) hname he hs.loops rfl hverbatim]
  rfl

theorem importModule_run (hnew : name ∉ s.imported)
    (hread : Library.read? s.files s.place (modulePath name) = some text)
    (hrun : (((Source.lines text).map (·.2)).forM handle).runFrom (noted name s) = (.ok (), t))
    (hclose : (closeAll handle).runFrom t = (.ok (), v)) :
    (importModule handle name).runFrom s = (.ok (), v) := by
  have hopen : (openFile (modulePath name)).runFrom (noted name s) = (.ok text, noted name s) := by
    have hread' : Library.read? (noted name s).files (noted name s).place (modulePath name) = some text := hread
    simp [openFile, Action.runFrom_bind, hread']
  have hfile : (compileModule handle name).runFrom s = (.ok (), v) := by
    rw [compileModule_run, compileFile, Action.runFrom_bind_ok hopen,
      Action.runFrom_bind_ok (guardLines_ok (modulePath name) hrun), hclose]
  refine (importModuleBy_new hnew (compileModule handle)).trans ?_
  rw [Action.runFrom_tryCatch, hfile]

end Compile

theorem Session.Idle.shut (hs : s.Idle tags u) : (s.withPage (s.page.shut tags u)).Idle tags u := by
  obtain rfl := hs.table
  refine ⟨rfl, hs.block, hs.verbatims, hs.loops, hs.defining, ?_, hs.regular.shut, hs.known.pops _⟩
  rw [Session.page_withPage, Page.shut_room]
  exact hs.unit

theorem Portion.Reached.closeAll (handle : Handler)
    {names : List Text} (hs : Reached tags u names st s) (hu : isUnit u) :
    (closeAll handle).runFrom s = (.ok (), s.endDefinition.withPage (s.page.shut tags u)) := by
  rw [closeAll_ends_definition hs.idle]
  exact closeAll_run handle hs.idle (indents_of_isUnit hu)


theorem Portion.Reached.import_run {name e : Text} {names : List Text}
    {xs : List Portion} {terminated : Bool} (n : Nat) (hs : Reached tags u names st s) (hu : isUnit u)
    (hname : Compile.isModuleName name) (hun : isUnreserved (Compile.importText name)) (he : LineEnd e)
    (hnew : name ∉ s.imported) (hread : Library.read? s.files s.place (Compile.modulePath name) =
      some (sourceText (xs.flatMap (Portion.lines u)) terminated))
    (hfit : Portion.fit st xs) (hx : ∀ x ∈ xs, x.IsSound tags u)
    (hdefined : ∀ x ∈ xs, ∀ m ∈ x.defined?, m ∈ names) (hfree : ∀ x ∈ xs, ∀ m ∈ x.name?, m ∉ names) :
    ∃ q v, (Compile.line (Compile.lineTo (n + 1)) (Compile.importText name ++ e)).runFrom s = (.ok (), v) ∧
      xs.foldlM (place tags u) s.page = .ok q ∧ q.Stands u (xs.foldl Portion.after st) ∧
      v.Idle tags u ∧ v.page = q.shut tags u ∧ ∀ m, m ∉ names → v.methods.get? m = none := by
  have hnoted : Reached tags u names st (Compile.noted name s.endDefinition) :=
    ⟨⟨hs.idle.table, hs.idle.block, hs.idle.verbatims, hs.idle.loops, rfl, hs.idle.unit, hs.idle.regular,
      hs.idle.known⟩, hs.stands, .inl rfl, hs.methods, hs.dropMarks⟩
  obtain ⟨t, hrun, ht, hplace, _⟩ := hnoted.portions (Compile.lineTo n) hu hfit hx hdefined hfree
    (forall₂_ended _ terminated)
  have hhandle : Compile.lineTo (n + 1) = Compile.line (Compile.lineTo n) := funext fun _ => rfl
  rw [← hhandle, ← source_lines (lines_signs hu hx)] at hrun
  refine ⟨t.page, _, ?_, hplace, ht.stands, ht.idle.shut, rfl, ht.methods⟩
  rw [Compile.line_import (Compile.lineTo (n + 1)) hs.idle hu hname hun he]
  exact Compile.importModule_run (s := s.endDefinition) hnew hread hrun (ht.closeAll _ hu)

/-! ## Documents -/

/-- A document of markup with an import in it, and the module that it imports. -/
structure Importing where
  before : Outline
  name : Text
  content : List Portion
  after : Outline

def Outline.portions (o : Outline) : List Portion := o.map fun (k, m) => .line k m

namespace Outline
variable {tags : TagTable} {u : Text} {o : Outline}

theorem flatMap_portions (u : Text) (o : Outline) : o.portions.flatMap (Portion.lines u) = o.lines u := by
  rw [portions, flatMap_map, lines, map_eq_flatMap]
  rfl

theorem place_portions (p : Page) : o.portions.foldlM (place tags u) p = p.follow tags u o.trace := by
  induction o generalizing p with
  | nil => rfl
  | cons x o ih =>
    change (p.put tags u x.1 x.2 >>= fun q => (portions o).foldlM (place tags u) q) = (p.put tags u x.1 x.2 >>= _)
    congr 1
    exact funext ih

theorem climbs_portions (h : Portion.fit st o.portions) : o.trace.Climbs st.limit := by
  induction o generalizing st with
  | nil => trivial
  | cons x o ih =>
    change (decide (x.1 ≤ st.limit) && Portion.fit ((line x.1 x.2).after st) (portions o)) at h
    rw [Bool.and_eq_true, decide_eq_true_eq] at h
    exact ⟨h.1, ih h.2⟩

end Outline

namespace Importing
variable {tags : TagTable} {u : Text} {i : Importing} {x : Portion}

def lines (u : Text) (i : Importing) : List Text := i.before.lines u ++ Compile.importText i.name :: i.after.lines u

def contentLines (u : Text) (i : Importing) : List Text := i.content.flatMap (Portion.lines u)

def included (u : Text) (i : Importing) : List Text := i.before.lines u ++ (i.contentLines u ++ i.after.lines u)

def portions (i : Importing) : List Portion := i.before.portions ++ (i.content ++ i.after.portions)

def standing (i : Importing) : Standing := (i.before.portions ++ i.content).foldl Portion.after {}

/-- The document with the module in it is well indented and allowed, and no element has the name of a
method. -/
structure IsSound (tags : TagTable) (u : Text) (i : Importing) : Prop where
  fit : Portion.fit {} i.portions = true
  sound : ∀ x ∈ i.portions, x.IsSound tags u
  free : ∀ x ∈ i.portions, ∀ name ∈ x.name?, name ∉ i.content.filterMap Portion.defined?
  name : Compile.isModuleName i.name = true
  unreserved : isUnreserved (Compile.importText i.name) = true

theorem IsSound.fits (h : i.IsSound tags u) : Portion.fit {} i.before.portions ∧
    Portion.fit (i.before.portions.foldl Portion.after {}) i.content ∧
    Portion.fit i.standing i.after.portions := by
  have hfit := h.fit
  rwa [portions, Portion.fit_append, Portion.fit_append, Bool.and_eq_true, Bool.and_eq_true, ← foldl_append] at hfit

theorem mem_portions : x ∈ i.portions ↔ x ∈ i.before.portions ∨ x ∈ i.content ∨ x ∈ i.after.portions := by
  rw [portions, mem_append, mem_append]

theorem flatMap_portions (u : Text) (i : Importing) : i.portions.flatMap (Portion.lines u) = i.included u := by
  rw [portions, flatMap_append, flatMap_append, Outline.flatMap_portions, Outline.flatMap_portions]
  rfl

theorem defined_mem (i : Importing) (hx : x ∈ i.portions) {m : Text} (hm : m ∈ x.defined?) :
    m ∈ i.content.filterMap Portion.defined? := by
  rcases mem_portions.mp hx with hx | hx | hx
  · obtain ⟨_, _, rfl⟩ := mem_map.mp hx
    cases hm
  · exact mem_filterMap.mpr ⟨x, hx, hm⟩
  · obtain ⟨_, _, rfl⟩ := mem_map.mp hx
    cases hm

theorem isPlain_after (h : i.IsSound tags u) : isPlain i.after ∧
    ∀ x ∈ i.after, x.2.check tags = .ok () := by
  have hmem : ∀ x ∈ i.after, (line x.1 x.2).IsSound tags u := fun x hx =>
    h.sound _ (mem_portions.mpr (.inr (.inr (mem_map.mpr ⟨x, hx, rfl⟩))))
  refine ⟨all_eq_true.mpr fun x hx => ?_, fun x hx => ?_⟩
  · rw [Bool.and_eq_true]
    exact ⟨(hmem x hx).1, (hmem x hx).2.1⟩
  · exact (Markup.check_eq_ok_iff (hmem x hx).1).mpr (hmem x hx).2.2

theorem line_signs (h : i.IsSound tags u) (hu : isUnit u) : ∀ l ∈ i.lines u, Unbroken l := by
  intro l hl
  rw [lines, ← Outline.flatMap_portions, ← Outline.flatMap_portions, mem_append, mem_cons] at hl
  rcases hl with hl | rfl | hl
  · exact lines_signs hu (fun x hx => h.sound x (mem_portions.mpr (.inl hx))) l hl
  · exact Entry.line_signs (x := .imports i.name) h.name
  · exact lines_signs hu (fun x hx => h.sound x (mem_portions.mpr (.inr (.inr hx)))) l hl

end Importing

namespace Document
variable {tags : TagTable} {files : Files} {path u : Text} {names : List Text}

theorem reached_start (tags : TagTable) (files : Files) (path u : Text) (names : List Text) :
    Reached tags u names {} (start tags files path) :=
  ⟨idle_start u, Page.stands_start u, .inl rfl, fun _ _ => rfl, rfl⟩

theorem compile_portions {xs : List Portion} {terminated : Bool}
    (hread : HasFile files path (sourceText (xs.flatMap (Portion.lines u)) terminated))
    (hu : isUnit u) (hfit : Portion.fit {} xs) (hx : ∀ x ∈ xs, x.IsSound tags u)
    (hdefined : ∀ x ∈ xs, ∀ m ∈ x.defined?, m ∈ names) (hfree : ∀ x ∈ xs, ∀ m ∈ x.name?, m ∉ names) :
    ∃ r, xs.foldlM (place tags u) {} = .ok r ∧ (compile tags files path).Writes (r.output tags u) := by
  obtain ⟨n, _, hhandle⟩ := handle_eq tags hread
  obtain ⟨t, hrun, ht, hplace, _⟩ := (reached_start tags files path u names).portions (lineTo n) hu hfit hx
    hdefined hfree (forall₂_ended _ terminated)
  have hline : lineTo (n + 1) = line (lineTo n) := funext fun _ => rfl
  rw [← hline, ← hhandle, ← source_lines (lines_signs hu hx)] at hrun
  exact ⟨t.page, hplace, compile_of_ok hread hrun (ht.closeAll _ hu)⟩

/-- A document with an import goes on after it from the closed page of what it has placed. -/
theorem compile_imported {i : Importing} {terminated₁ terminated₂ : Bool}
    (hread : HasFile files path (sourceText (i.lines u) terminated₁))
    (hmodule : Library.read? files (.project (Library.directoryOf path)) (modulePath i.name) =
      some (sourceText (i.contentLines u) terminated₂))
    (hu : isUnit u) (hi : i.IsSound tags u) (hdefined : ∀ x ∈ i.portions, ∀ m ∈ x.defined?, m ∈ names)
    (hfree : ∀ x ∈ i.portions, ∀ m ∈ x.name?, m ∉ names) :
    ∃ q, (i.before.portions ++ i.content).foldlM (place tags u) {} = .ok q ∧ q.Stands u i.standing ∧
      Renders tags u files path ((q.shut tags u).follow tags u (trace i.after)) := by
  obtain ⟨hfit₁, hfit₂, hfit₃⟩ := hi.fits
  have hin₁ : ∀ x ∈ i.before.portions, x ∈ i.portions := fun x hx => Importing.mem_portions.mpr (.inl hx)
  have hin₂ : ∀ x ∈ i.content, x ∈ i.portions := fun x hx => Importing.mem_portions.mpr (.inr (.inl hx))
  obtain ⟨n, hn, hhandle⟩ := handle_eq tags hread
  obtain ⟨n, rfl⟩ : ∃ k, n = k + 1 := ⟨n - 1, by omega⟩
  have hline : lineTo (n + 1 + 1) = line (lineTo (n + 1)) := funext fun _ => rfl
  obtain ⟨xs, ys, hlines, hxs, hys⟩ := forall₂_append_left (forall₂_ended (i.lines u) terminated₁)
  cases hys with | cons hy hzs =>
  rename_i y zs
  obtain ⟨e, he, rfl⟩ := hy
  rw [← flatMap_portions] at hxs
  -- The lines before the import.
  obtain ⟨s, hrun, hs, hbefore, hsame⟩ := (reached_start tags files path u names).portions (lineTo (n + 1)) hu
    hfit₁ (fun x hx => hi.sound x (hin₁ x hx)) (fun x hx => hdefined x (hin₁ x hx)) (fun x hx => hfree x (hin₁ x hx)) hxs
  have hfiles : s.files = files := congrArg Prod.fst hsame
  have hplaced : s.place = .project (Library.directoryOf path) := congrArg (·.2.1) hsame
  have himported : s.imported = [] := congrArg (·.2.2) hsame
  rw [← hfiles, ← hplaced] at hmodule
  -- The import.
  obtain ⟨q, v, himport, hcontent, hq, hv, hpage, hmethods⟩ := hs.import_run n hu hi.name hi.unreserved he
    (himported ▸ not_mem_nil) hmodule hfit₂ (fun x hx => hi.sound x (hin₂ x hx))
    (fun x hx => hdefined x (hin₂ x hx)) (fun x hx => hfree x (hin₂ x hx))
  rw [← foldl_append] at hq
  refine ⟨q, ?_, hq, ?_⟩
  · have hblank : (start tags files path).page = {} := rfl
    rw [foldlM_append, ← hblank, hbefore]
    exact hcontent
  -- The lines after it.
  have hdoes : Does tags u (fun st => ∀ m, m ∉ names → st.methods.get? m = none)
      (zs.forM (line (lineTo (n + 1)))) (trace i.after) := by
    refine Does.outline hu (i.isPlain_after hi).1 hzs fun st hst x hx name hname =>
      hst name (hfree (.line x.1 x.2) ?_ name hname)
    exact Importing.mem_portions.mpr (.inr (.inr (mem_map.mpr ⟨x, hx, rfl⟩)))
  have hends := hdoes v hv hmethods (.inr (by
    rw [hpage, Page.shut_room, hq.room]
    exact (climbs_portions hfit₃).mono hq.limit_le))
  have hall : (((Source.lines (sourceText (i.lines u) terminated₁)).map (·.2)).forM (handle tags files path)).runFrom
      (start tags files path) = (zs.forM (line (lineTo (n + 1)))).runFrom v := by
    rw [source_lines (i.line_signs hi hu), hlines, hhandle, hline, Action.runFrom_forM_append, hrun]
    exact Action.runFrom_forM_cons_ok himport zs
  rw [hpage] at hends
  exact compile_of_ends (indents_of_isUnit hu) hread hall hends

/-- A document compiles with an import exactly if no line after the import is as near to the left edge as
one that is open there, and it gives the output that it has with the text of the module in the place
of the import exactly if the lines that are open there need not be closed after the others. -/
theorem compile_import_iff (tags : TagTable) (u : Text) (i : Importing) (terminated₁ terminated₂ terminated₃ : Bool)
    (files files' : Files) (path path' : Text)
    (hread : HasFile files path (sourceText (i.lines u) terminated₁))
    (hmodule : Library.read? files (.project (Library.directoryOf path)) (Compile.modulePath i.name) =
      some (sourceText (i.contentLines u) terminated₂))
    (hread' : HasFile files' path' (sourceText (i.included u) terminated₃))
    (hu : isUnit u = true) (hi : i.IsSound tags u) :
    (compile tags files' path').fault = none ∧
      ((compile tags files path).fault = none ↔ ∀ y ∈ i.after, i.standing.room ≤ y.1) ∧
      ((compile tags files path).Writes (compile tags files' path').output ↔
        i.standing.Admits tags i.after) := by
  have hdefined : ∀ x ∈ i.portions, ∀ m ∈ x.defined?, m ∈ i.content.filterMap Portion.defined? :=
    fun x hx m hm => i.defined_mem hx hm
  obtain ⟨q, hbefore, hq, hcompile⟩ := compile_imported hread hmodule hu hi hdefined hi.free
  rw [← i.flatMap_portions] at hread'
  obtain ⟨r, hplace, hfault, houtput⟩ := compile_portions hread' hu hi.fit hi.sound hdefined hi.free
  have hfollow : q.follow tags u (Outline.trace i.after) = .ok r := by
    rw [Importing.portions, ← List.append_assoc, List.foldlM_append, hbefore] at hplace
    exact (Outline.place_portions q).symm.trans hplace
  have hclimbs := Outline.climbs_portions hi.fits.2.2
  obtain ⟨hshaped, hcheck⟩ := i.isPlain_after hi
  refine ⟨hfault, ?_⟩
  rw [← hq.shut_follow_iff hu hclimbs hcheck, ← hq.shut_output_iff hu hclimbs hshaped hcheck hfollow, houtput]
  cases hshut : (q.shut tags u).follow tags u (Outline.trace i.after) with
  | error f =>
    rw [hshut] at hcompile
    obtain ⟨g, hg⟩ := hcompile
    simp [hg]
  | ok d =>
    rw [hshut] at hcompile
    simp [Compiled.Writes, hcompile.1, hcompile.2]

def sampleImporting : Importing where
  before := []
  name := "m"
  content :=
    [.definition ⟨"f", some ["x"], true,
        [(1, .markup (.element "b" (some [("id", [.ref "x"])]) false))]⟩,
      .line 0 (.text "t")]
  after := [(1, .element "p" none false)]

/-- A module that goes on where the document stands, under an element that is still open. -/
def nestedImporting : Importing where
  before := [(0, .element "a" none false), (1, .element "b" none false)]
  name := "m"
  content := [.line 1 (.element "p" none false)]
  after := [(2, .element "c" none false)]

def importFiles (u : Text) (i : Importing) : Files :=
  [("a.pyml", sourceText (i.lines u) true), ("m.pyml", sourceText (i.contentLines u) true)]

def includedFiles (u : Text) (i : Importing) : Files := [("a.pyml", sourceText (i.included u) true)]

theorem compile_import_iff_sample :
    sampleImporting.lines "\t".toList = ["import m".toList, "\tp".toList] ∧
      sampleImporting.included "\t" =
        ["def f($x):".toList, "\tb(id=\"$x\")".toList, "\"t\"".toList, "\tp".toList] ∧
      (compile sampleTags (importFiles "\t" sampleImporting) "a.pyml").output =
        (compile sampleTags (includedFiles "\t" sampleImporting) "a.pyml").output ∧
      nestedImporting.lines "\t".toList = ["a".toList, "\tb".toList, "import m".toList, "\t\tc".toList] ∧
      (compile sampleTags (importFiles "\t" nestedImporting) "a.pyml").fault = none ∧
      (compile sampleTags (importFiles "\t" nestedImporting) "a.pyml").output ≠
        (compile sampleTags (includedFiles "\t" nestedImporting) "a.pyml").output := by
  obtain ⟨_, _, hsample⟩ := compile_import_iff sampleTags "\t" sampleImporting true true true
    (importFiles "\t" sampleImporting) (includedFiles "\t" sampleImporting) "a.pyml" "a.pyml"
    (by decide +kernel) (by decide +kernel) (by decide +kernel) (by decide)
    ⟨by decide, by decide +kernel, by decide, by decide, by decide⟩
  obtain ⟨_, hcompiles, hnested⟩ := compile_import_iff sampleTags "\t" nestedImporting true true true
    (importFiles "\t" nestedImporting) (includedFiles "\t" nestedImporting) "a.pyml" "a.pyml"
    (by decide +kernel) (by decide +kernel) (by decide +kernel) (by decide)
    ⟨by decide, by decide +kernel, by decide, by decide, by decide⟩
  have hfault := hcompiles.mpr (by decide)
  refine ⟨by decide, by decide, (hsample.mpr (by decide +kernel)).2, by decide, hfault, fun heq => ?_⟩
  exact absurd (hnested.mp ⟨hfault, heq⟩) (by decide +kernel)

/-- A line at the left edge after the import of a module with a line. -/
theorem import_before_line_fault :
    (compile sampleTags [("a.pyml", "import m\na\n"), ("m.pyml", "p\n")]
        "a.pyml").fault.isSome = true ∧
      (compile sampleTags [("a.pyml", "p\na\n")] "a.pyml").Writes "<p />\n<a />\n" := by
  decide +kernel

end Document
end OutlineMarkup
