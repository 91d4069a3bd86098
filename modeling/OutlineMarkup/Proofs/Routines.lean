import OutlineMarkup.Proofs.Bodies
import OutlineMarkup.Proofs.Programs

/-!
# Routines

Methods and the bodies of loops are routines alike. A call binds the parameters and goes on with the
lines of the body. A method has variables of its own, while a loop binds a variable of the document,
so the variables of what is running stay as they are only if what is called meanwhile is something
else and binds other names.
-/

namespace OutlineMarkup
open List Program

/-- Parameters, whether they are variables of its own, and a body whose depths start from one. -/
structure Routine where
  names : List Text
  own : Bool
  body : List (Nat × Item Template)

namespace Routine

def binding (r : Routine) (arguments : List Text) (n : Text) : Text :=
  ((r.names.zip arguments).lookup n).getD []

def inlined (r : Routine) (k : Nat) (arguments : List Text) : List (Nat × Item Text) :=
  r.body.map fun (j, i) => (k + j - 1, i.map (Template.fill (r.binding arguments)))

structure IsSound (r : Routine) : Prop where
  distinct : r.names.Nodup
  names : ∀ n ∈ r.names, n.isName = true
  depths : ∀ x ∈ r.body, 1 ≤ x.1
  fillable : ∀ x ∈ r.body, x.2.isSound r.names = true
  source : ∀ x ∈ r.body, isUnreserved (x.2.map Template.source).written = true

structure Stands (u : Text) (r : Routine) (m : Method) : Prop where
  parameters : m.parameters = r.names.map ('$' :: ·)
  own : m.ownVariables = r.own
  lines : List.Forall₂ (Keeps u) r.body m.lines

variable {r : Routine} {arguments : List Text}

theorem binding_mem (hlength : r.names.length = arguments.length) {n : Text} (hn : n ∈ r.names) :
    r.binding arguments n ∈ arguments := lookup_zip_mem hlength hn

end Routine

abbrev Routines := Text → Option Routine

namespace Routines
variable {R : Routines} {n : Nat} {x : Nat × Item Text} {lines : Items} {name : Text}
  {r : Routine}

/-- Elements are not named after routines, and a call has an argument for each parameter. -/
def Admits {α : Type} (R : Routines) : Item α → Prop
  | .markup m => ∀ name ∈ m.name?, R name = none
  | .call name arguments _ => ∃ r, R name = some r ∧ r.names.length = (arguments.getD []).length

theorem admits_map {α β : Type} (f : α → β) {i : Item α} : R.Admits (i.map f) ↔ R.Admits i := by
  match i with
  | .markup (.element _ _ _) | .markup (.text _) | .call _ none _ => rfl
  | .call _ (some _) _ => simp [Item.map, Admits]

/-- The lines that a line comes to, calls at most `n` deep. -/
def Comes (R : Routines) : Nat → Nat × Item Text → List (Nat × Item Text) → Prop
  | _, (k, .markup m), lines => lines = [(k, .markup m)]
  | 0, (_, .call _ _ _), _ => False
  | n + 1, (k, .call name arguments colon), lines =>
    ∃ r parts, R name = some r ∧
      List.Forall₂ (R.Comes n) (r.inlined k (arguments.getD [])) parts ∧
      lines = (k, .call name arguments colon) :: parts.flatten

theorem Comes.head? (h : R.Comes n x lines) : lines.head? = some x := by
  obtain ⟨k, m | ⟨name, arguments, colon⟩⟩ := x
  · obtain rfl : lines = [(k, .markup m)] := by cases n <;> exact h
    rfl
  · cases n with
    | zero => exact h.elim
    | succ n =>
      obtain ⟨r, parts, _, _, rfl⟩ := h
      rfl

/-- Calls go on to routines that come later in an order, and a loop shares no variable with those that
come later. -/
structure IsSound (before : Text → Text → Prop) (R : Routines) : Prop where
  sound : ∀ {name r}, R name = some r → r.IsSound
  admits : ∀ {name r}, R name = some r → ∀ x ∈ r.body, R.Admits x.2
  calls : ∀ {a r}, R a = some r → ∀ x ∈ r.body, ∀ b ∈ x.2.callee?, before a b
  apart : ∀ {a b r r' n}, before a b → R a = some r → R b = some r' → r.own = false → r'.own = false →
    n ∈ r.names → n ∉ r'.names

/-- The methods are those of the routines, and methods with variables of their own are told apart by
their serial numbers. -/
structure Holds (u : Text) (R : Routines) (methods : Table Method) : Prop where
  found : ∀ {name r}, R name = some r → ∃ m, methods.get? name = some m ∧ r.Stands u m
  absent : ∀ {name}, R name = none → methods.get? name = none
  serials : ∀ {a b m m'}, methods.get? a = some m → methods.get? b = some m' →
    m.ownVariables = true → m'.ownVariables = true → m.serial = m'.serial → a = b

def set (R : Routines) (name : Text) (r : Routine) : Routines := fun a => if a = name then some r else R a

theorem set_self (name : Text) (r : Routine) : R.set name r name = some r := if_pos rfl

theorem set_ne {a : Text} (h : a ≠ name) (r : Routine) : R.set name r a = R a := if_neg h

theorem set_eq_self (h : R name = some r) : R.set name r = R := by
  funext a
  by_cases ha : a = name
  · rw [ha, set_self, h]
  · exact set_ne ha r

theorem set_set (name : Text) (r r' : Routine) : (R.set name r).set name r' = R.set name r' := by
  funext a
  by_cases ha : a = name
  · rw [ha, set_self, set_self]
  · rw [set_ne ha, set_ne ha, set_ne ha]

theorem Holds.insert {u : Text} {methods methods' : Table Method}
    {m : Method} (h : R.Holds u methods) (hm : methods'.get? name = some m) (hr : r.Stands u m)
    (hother : ∀ a, a ≠ name → methods'.get? a = methods.get? a)
    (hserial : m.ownVariables → ∀ a m', a ≠ name → methods.get? a = some m' →
      m'.ownVariables → m'.serial ≠ m.serial) : (R.set name r).Holds u methods' := by
  refine ⟨fun {a r'} hr' => ?_, fun {a} ha => ?_, fun {a b m₁ m₂} ha hb hown hown' heq => ?_⟩
  · by_cases hname : a = name
    · rw [hname, set_self] at hr'
      cases hr'
      exact ⟨m, hname ▸ hm, hr⟩
    · rw [set_ne hname] at hr'
      rw [hother a hname]
      exact h.found hr'
  · by_cases hname : a = name
    · rw [hname, set_self] at ha
      cases ha
    · rw [set_ne hname] at ha
      rw [hother a hname]
      exact h.absent ha
  · by_cases hna : a = name <;> by_cases hnb : b = name
    · rw [hna, hnb]
    · rw [hna, hm] at ha
      cases ha
      rw [hother b hnb] at hb
      exact absurd heq.symm (hserial hown b m₂ hnb hb hown')
    · rw [hnb, hm] at hb
      cases hb
      rw [hother a hna] at ha
      exact absurd heq (hserial hown' a m₁ hna ha hown)
    · rw [hother a hna] at ha
      rw [hother b hnb] at hb
      exact h.serials ha hb hown hown' heq

end Routines

def Procedure.routine (p : Procedure) : Routine := ⟨p.names, true, p.body⟩

def Program.routines (P : Program) : Routines := fun name => (P.find? name).map (·.routine)

theorem Program.routines_eq_some {P : Program} {name : Text} {r : Routine} (h : P.routines name = some r) :
    ∃ p, P.find? name = some p ∧ p.routine = r := Option.map_eq_some_iff.mp h

/-! ## Variables while routines run -/

namespace Method

def slot (m : Method) : Option Nat := if m.ownVariables then some m.serial else none

end Method

namespace Store
variable {st : Store} {m : Method} {vars : Variables}

def value? (st : Store) (slot : Option Nat) (n : Text) : Option Text :=
  match slot with
  | some serial => (st.frames.lookup serial).bind (·.get? ('$' :: n))
  | none => st.globals.get? ('$' :: n)

theorem lookup_setFrame (hm : m.ownVariables) (j : Nat) : (st.setFrame m vars).frames.lookup j =
      if j = m.serial then some vars else st.frames.lookup j := by
  rw [setFrame, if_pos hm, lookup_cons]
  by_cases hj : j = m.serial
  · simp [hj]
  · rw [if_neg hj, beq_false_of_ne hj]
    change (st.frames.filter (·.1 != m.serial)).lookup j = _
    induction st.frames with
    | nil => rfl
    | cons x frames ih =>
      by_cases hx : x.1 = m.serial
      · rw [filter_cons_of_neg (by simp [hx]), ih, lookup_cons]
        rw [beq_false_of_ne (hx ▸ hj)]
      · rw [filter_cons_of_pos (by simp [hx]), lookup_cons, lookup_cons, ih]

theorem value?_setFrame_slot (n : Text) : (st.setFrame m vars).value? m.slot n = vars.get? ('$' :: n) := by
  cases hm : m.ownVariables with
  | true =>
    rw [Method.slot, hm]
    change ((st.setFrame m vars).frames.lookup m.serial).bind _ = _
    rw [lookup_setFrame hm, if_pos rfl]
    rfl
  | false =>
    rw [Method.slot, hm, setFrame, hm]
    rfl

theorem value?_setFrame_ne {slot : Option Nat} (h : slot ≠ m.slot) (n : Text) :
    (st.setFrame m vars).value? slot n = st.value? slot n := by
  cases hm : m.ownVariables with
  | true =>
    rw [Method.slot, hm] at h
    cases slot with
    | none =>
      rw [setFrame, hm]
      rfl
    | some serial =>
      change ((st.setFrame m vars).frames.lookup serial).bind _ = (st.frames.lookup serial).bind _
      rw [lookup_setFrame hm, if_neg fun hs => h (by rw [hs]; rfl)]
  | false =>
    rw [Method.slot, hm] at h
    cases slot with
    | none => exact absurd rfl h
    | some serial =>
      rw [setFrame, hm]
      rfl

theorem get?_frame {n w : Text} (h : st.value? m.slot n = some w) :
    (st.frame m).get? ('$' :: n) = some w := by
  rw [Method.slot] at h
  rw [frame]
  cases hm : m.ownVariables with
  | false =>
    rw [hm] at h
    exact h
  | true =>
    rw [hm] at h
    obtain ⟨vars, hvars, hget⟩ := Option.bind_eq_some_iff.mp h
    rw [if_pos rfl, hvars]
    exact hget

theorem value?_setFrame_frame (slot : Option Nat) (n : Text) :
    (st.setFrame m (st.frame m)).value? slot n = st.value? slot n := by
  by_cases h : slot = m.slot
  · rw [h, value?_setFrame_slot, frame, Method.slot]
    cases hm : m.ownVariables with
    | false => rfl
    | true =>
      rw [if_pos rfl, if_pos rfl]
      change ((st.frames.lookup m.serial).getD []).get? _ = (st.frames.lookup m.serial).bind _
      cases st.frames.lookup m.serial <;> rfl
  · exact value?_setFrame_ne h n

end Store

/-- All but the variables is as it was, the variables of the document are known ones, and some values
are held. -/
structure Keeping (base : Store) (known : Text → Prop) (held : List (Option Nat × Text × Text))
    (st : Store) : Prop where
  methods : st.methods = base.methods
  serials : st.serials = base.serials
  loopCount : st.loopCount = base.loopCount
  dropMarks : st.dropMarks = base.dropMarks
  known : ∀ v, st.globals.get? v ≠ none → known v
  held : ∀ x ∈ held, st.value? x.1 x.2.1 = some x.2.2

namespace Keeping
variable {base st : Store} {known : Text → Prop} {held : List (Option Nat × Text × Text)} {m : Method}
  {vars : Variables}

theorem refl (hknown : ∀ v, st.globals.get? v ≠ none → known v) : Keeping st known [] st :=
  ⟨rfl, rfl, rfl, rfl, hknown, by simp⟩

theorem of_setFrame (h : Keeping base known held st)
    (hknown : m.ownVariables = false → ∀ v, vars.get? v ≠ none → known v)
    {held' : List (Option Nat × Text × Text)}
    (hheld : ∀ x ∈ held', (st.setFrame m vars).value? x.1 x.2.1 = some x.2.2) :
    Keeping base known held' (st.setFrame m vars) := by
  cases hm : m.ownVariables with
  | true =>
    rw [Store.setFrame, hm] at hheld ⊢
    exact ⟨h.methods, h.serials, h.loopCount, h.dropMarks, h.known, hheld⟩
  | false =>
    rw [Store.setFrame, hm] at hheld ⊢
    exact ⟨h.methods, h.serials, h.loopCount, h.dropMarks, hknown hm, hheld⟩

theorem setFrame_frame (h : Keeping base known held st) :
    Keeping base known held (st.setFrame m (st.frame m)) := by
  refine h.of_setFrame (fun hm v hv => h.known v ?_) fun x hx => ?_
  · rw [Store.frame, hm] at hv
    exact hv
  · rw [Store.value?_setFrame_frame]
    exact h.held x hx

end Keeping

/-! ## Carrying out calls -/

namespace Routines
variable {R : Routines} {before : Text → Text → Prop} {tags : TagTable} {u tag e name : Text}
  {base : Store} {known : Text → Prop} {held : List (Option Nat × Text × Text)} {k N : Nat}
  {arguments : Option (List Text)} {colon : Bool} {r : Routine} {m : Method}

/-- What is held are parameters of routines that come before what the item calls. -/
def LeadTo (R : Routines) (before : Text → Text → Prop) (methods : Table Method)
    (held : List (Option Nat × Text × Text)) (i : Item Text) : Prop :=
  ∀ x ∈ held, ∃ a r m, R a = some r ∧ methods.get? a = some m ∧ x.1 = m.slot ∧ x.2.1 ∈ r.names ∧
    ∀ b ∈ i.callee?, before a b

def parameters (m : Method) (r : Routine) (arguments : List Text) :
    List (Option Nat × Text × Text) :=
  r.names.map fun n => (m.slot, n, r.binding arguments n)

theorem markup_does (hu : isUnit u) (hM : R.Holds u base.methods) {m : Markup Text}
    (hm : m.isPlain) (hx : R.Admits (.markup m)) (htag : Spells tag m) (he : LineEnd e) :
    Does tags u (Keeping base known held) (Compile.lineTo (N + 1) (sourceLine u k tag e)) [(k, some m)] := by
  refine Does.markup htag hm hu he fun st hst name hname => ?_
  rw [hst.methods]
  exact hM.absent (hx name hname)

theorem LeadTo.slot_ne (hR : R.IsSound before) (hM : R.Holds u base.methods)
    (hirrefl : ∀ a, ¬ before a a) (hr : R name = some r) (hm : base.methods.get? name = some m)
    (hown : m.ownVariables = r.own) (hlead : R.LeadTo before base.methods held (.call name arguments colon)) :
    ∀ x ∈ held, x.1 = m.slot → m.ownVariables = false ∧ x.2.1 ∉ r.names := by
  intro x hx hslot
  obtain ⟨a, r', m', hr', hm', hx1, hx2, hbefore⟩ := hlead x hx
  have hab := hbefore name rfl
  have hne : a ≠ name := fun h => hirrefl a (h ▸ hab)
  obtain ⟨_, hm'', hstands⟩ := hM.found hr'
  obtain rfl : m' = _ := Option.some.inj (hm'.symm.trans hm'')
  rw [hx1, Method.slot, Method.slot] at hslot
  cases hv : m.ownVariables with
  | true =>
    rw [hv] at hslot
    cases hv' : m'.ownVariables with
    | true =>
      rw [hv'] at hslot
      exact absurd (hM.serials hm' hm hv' hv (Option.some.inj hslot)) hne
    | false =>
      rw [hv'] at hslot
      cases hslot
  | false =>
    refine ⟨rfl, ?_⟩
    rw [hv] at hslot
    cases hv' : m'.ownVariables with
    | true =>
      rw [hv'] at hslot
      cases hslot
    | false => exact hR.apart hab hr' hr (hstands.own.symm.trans hv') (hown.symm.trans hv) hx2

theorem keeping_bind {arguments : List Text} {st : Store}
    (hstands : r.Stands u m) (hsound : r.IsSound) (hlength : r.names.length = arguments.length)
    (hwords : ∀ w ∈ arguments, isBareWord w) (hknown : r.own = false → ∀ n ∈ r.names, known ('$' :: n))
    (hfree : ∀ x ∈ held, x.1 = m.slot → m.ownVariables = false ∧ x.2.1 ∉ r.names)
    (hst : Keeping base known held st) : ∃ vars, m.bindArguments arguments st.globals = (.ok (), vars) ∧
      Keeping base known (parameters m r arguments ++ held) (st.setFrame m vars) := by
  obtain ⟨vars, hbind, hvalues, hother⟩ := Method.bindFrom_get? hlength hsound.distinct
    (fun w hw => by
      have hword := hwords w hw
      rw [isBareWord, Bool.and_eq_true, all_eq_true] at hword
      exact not_mem_of_all hword.2 (by decide)) st.globals
  refine ⟨vars, ?_, hst.of_setFrame (fun hm v hv => ?_) fun x hx => ?_⟩
  · rw [Method.bindArguments, hstands.parameters, hbind]
  · by_cases hmem : v ∈ r.names.map ('$' :: ·)
    · obtain ⟨n, hn, rfl⟩ := mem_map.mp hmem
      exact hknown (hstands.own.symm.trans hm) n hn
    · rw [hother v hmem] at hv
      exact hst.known v hv
  · rcases mem_append.mp hx with hx | hx
    · obtain ⟨n, hn, rfl⟩ := mem_map.mp hx
      rw [Store.value?_setFrame_slot]
      exact hvalues n hn
    · by_cases hslot : x.1 = m.slot
      · obtain ⟨hm, hn⟩ := hfree x hx hslot
        have hglobal : m.slot = none := by rw [Method.slot, hm]; rfl
        have hheld := hst.held x hx
        rw [hslot, hglobal] at hheld
        rw [hslot, Store.value?_setFrame_slot, hother _ (by simpa using hn)]
        exact hheld
      · rw [Store.value?_setFrame_ne hslot]
        exact hst.held x hx

variable (hR : R.IsSound before)
include hR

theorem call_does (hM : R.Holds u base.methods) (hirrefl : ∀ a, ¬ before a a)
    (hu : isUnit u) (hknown : ∀ {name r}, R name = some r → r.own = false → ∀ n ∈ r.names, known ('$' :: n))
    {parts : List (Items)} (hr : R name = some r)
    (hlength : r.names.length = (arguments.getD []).length) (hwords : ∀ w ∈ arguments.getD [], isBareWord w)
    (hfilled : ∀ y ∈ r.inlined k (arguments.getD []), isUnreserved y.2.written)
    (hlead : R.LeadTo before base.methods held (.call name arguments colon))
    (htag : Names tag ⟨name, arguments.getD []⟩) (he : LineEnd e)
    (hbody : ∀ m, base.methods.get? name = some m →
      Forall₂ (fun y part => ∀ tag e, Item.ReadAs tag y.2 → LineEnd e →
        Does tags u (Keeping base known (parameters m r (arguments.getD []) ++ held))
          (Compile.lineTo N (sourceLine u y.1 tag e)) (trace part))
        (r.inlined k (arguments.getD [])) parts) :
    Does tags u (Keeping base known held) (Compile.lineTo (N + 1) (sourceLine u k tag e))
      ((k, none) :: trace parts.flatten) := by
  have hsound := hR.sound hr
  obtain ⟨m, hm, hstands⟩ := hM.found hr
  have hrunnable : Runnable r.names (r.binding (arguments.getD [])) r.body :=
    ⟨hsound.names, fun n hn => hwords _ (Routine.binding_mem hlength hn), hsound.depths,
      hsound.fillable, hsound.source, fun x hx => hfilled _ (mem_map.mpr ⟨x, hx, rfl⟩)⟩
  have hlines : Does tags u (Keeping base known (parameters m r (arguments.getD []) ++ held))
      (m.lines.forM (Compile.runLine (Compile.lineTo N) m (u.times k)))
      (trace parts.flatten) := by
    have hparts := hbody m hm
    rw [Routine.inlined, forall₂_map_left_iff] at hparts
    have htrace : trace parts.flatten = (parts.map trace).flatten := map_flatten
    rw [htrace]
    refine Does.runLines hstands.lines hu hrunnable
      ⟨fun st hst n hn => ?_, fun st hst => hst.setFrame_frame⟩ ?_
    · exact Store.get?_frame (hst.held _ (mem_append_left _ (mem_map.mpr ⟨n, hn, rfl⟩)))
    · rw [forall₂_map_right_iff]
      exact hparts
  refine Does.call htag hu he (fun st hst => by rw [hst.methods]; exact hm) ?_
  refine Does.runMethod (fun st hst => ?_) (fun st hst => ?_) hlines
  · exact keeping_bind hstands hsound hlength hwords (hknown hr)
      (hlead.slot_ne hR hM hirrefl hr hm hstands.own) hst
  · exact ⟨hst.methods, hst.serials, hst.loopCount, hst.dropMarks, hst.known,
      fun x hx => hst.held x (mem_append_right _ hx)⟩

/-- While the body of a routine runs, its parameters are held as well. -/
theorem LeadTo.inlined (htrans : ∀ {a b c}, before a b → before b c → before a c)
    (hr : R name = some r) (hm : base.methods.get? name = some m)
    (hlead : R.LeadTo before base.methods held (.call name arguments colon)) :
    ∀ y ∈ r.inlined k (arguments.getD []),
      R.LeadTo before base.methods (parameters m r (arguments.getD []) ++ held) y.2 := by
  intro y hy x hx
  obtain ⟨⟨j, i⟩, hi, rfl⟩ := mem_map.mp hy
  have hcalls : ∀ b ∈ (i.map (Template.fill (r.binding (arguments.getD [])))).callee?, before name b := by
    intro b hb
    rw [callee?_map] at hb
    exact hR.calls hr _ hi b hb
  rcases mem_append.mp hx with hx | hx
  · obtain ⟨n, hn, rfl⟩ := mem_map.mp hx
    exact ⟨name, r, m, hr, hm, rfl, hn, hcalls⟩
  · obtain ⟨a, r', m', hr', hm', hx1, hx2, hbefore⟩ := hlead x hx
    exact ⟨a, r', m', hr', hm', hx1, hx2, fun b hb => htrans (hbefore name rfl) (hcalls b hb)⟩

theorem inlined_fits {arguments : List Text}
    (hr : R name = some r) (hlength : r.names.length = arguments.length)
    (hwords : ∀ w ∈ arguments, isBareWord w) (k : Nat) :
    ∀ y ∈ r.inlined k arguments, y.2.isPlain ∧ R.Admits y.2 := by
  intro y hy
  obtain ⟨⟨j, i⟩, hi, rfl⟩ := mem_map.mp hy
  refine ⟨Item.isPlain_fill ((hR.sound hr).fillable _ hi) fun n hn =>
    hwords _ (Routine.binding_mem hlength hn), ?_⟩
  exact (admits_map _).mpr (hR.admits hr _ hi)

/-- Carrying out a line does to the page what the lines do that it comes to. -/
theorem Comes.does (hM : R.Holds u base.methods) (hirrefl : ∀ a, ¬ before a a)
    (htrans : ∀ {a b c}, before a b → before b c → before a c) (hu : isUnit u)
    (hknown : ∀ {name r}, R name = some r → r.own = false → ∀ n ∈ r.names, known ('$' :: n))
    {n : Nat} {x : Nat × Item Text} {lines : Items} (h : R.Comes n x lines)
    (hx : x.2.isPlain ∧ R.Admits x.2) (hun : ∀ y ∈ lines, isUnreserved y.2.written)
    (hlead : R.LeadTo before base.methods held x.2) (hN : n ≤ N)
    (htag : Item.ReadAs tag x.2) (he : LineEnd e) :
    Does tags u (Keeping base known held) (Compile.lineTo (N + 1) (sourceLine u x.1 tag e))
      (trace lines) := by
  induction n generalizing x lines held N tag e with
  | zero =>
    obtain ⟨k, m | ⟨name, arguments, colon⟩⟩ := x
    · cases h
      exact markup_does hu hM hx.1 hx.2 htag he
    · exact h.elim
  | succ n ih =>
    obtain ⟨k, m | ⟨name, arguments, colon⟩⟩ := x
    · cases h
      exact markup_does hu hM hx.1 hx.2 htag he
    · obtain ⟨r, parts, hr, hparts, rfl⟩ := h
      obtain ⟨N, rfl⟩ : ∃ N', N = N' + 1 := ⟨N - 1, by omega⟩
      have hsub : ∀ y ∈ parts.flatten, isUnreserved y.2.written := (forall_mem_cons.mp hun).2
      obtain ⟨r', hr', hlength⟩ := hx.2
      obtain rfl : r = r' := Option.some.inj (hr.symm.trans hr')
      have hwords : ∀ w ∈ arguments.getD [], isBareWord w := by
        have hshaped := hx.1
        rw [Item.isPlain, Bool.and_eq_true, all_eq_true] at hshaped
        exact hshaped.2
      have hfits := inlined_fits hR hr hlength hwords k
      refine call_does hR hM hirrefl hu hknown hr hlength hwords (fun y hy => ?_) hlead htag he
        fun m hm => ?_
      · exact hsub y (mem_flatten_of_head? (hparts.imp fun _ _ => Comes.head?) hy)
      · refine (forall₂_mem hparts).imp fun y part hpart tag e htag he => ?_
        exact ih hpart.2.2 (hfits y hpart.1)
          (fun z hz => hsub z (mem_flatten.mpr ⟨part, hpart.2.1, hz⟩))
          (hlead.inlined hR htrans hr hm y hpart.1) (by omega) htag he

end Routines
end OutlineMarkup
