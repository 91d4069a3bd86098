import OutlineMarkup.Proofs.Items

/-!
# Bodies

The lines of a method or loop are kept as they are written, without the indentation of the body.
When the method runs, its variables stand for the arguments, and each line is handled with the
references filled, behind the indentation of the call.
-/

namespace OutlineMarkup
open List Compile

/-! ## Variables of a method -/

namespace Store

def frame (st : Store) (m : Method) : Variables :=
  if m.ownVariables then (st.frames.lookup m.serial).getD [] else st.globals

def setFrame (st : Store) (m : Method) (vars : Variables) : Store :=
  if m.ownVariables then
    { st with frames := (m.serial, vars) :: st.frames.filter (·.1 != m.serial) }
  else { st with globals := vars }

theorem frame_setFrame (st : Store) (m : Method) (vars : Variables) : (st.setFrame m vars).frame m = vars := by
  rw [frame, setFrame]
  cases m.ownVariables <;> simp

end Store

namespace Compile
variable {m : Method} {vars : Variables} {s : Session}

theorem frame_run : (frame m).runFrom s = (.ok (s.store.frame m), s) := by
  rw [frame, Action.runFrom_bind_ok (Action.runFrom_get s), Store.frame]
  cases m.ownVariables <;> rfl

theorem setFrame_run (m : Method) (vars : Variables) (s : Session) :
    ∃ s', (setFrame m vars).runFrom s = (.ok (), s') ∧ s'.page = s.page ∧ s'.messages = s.messages ∧
      s'.store = s.store.setFrame m vars ∧ ∀ u, s.KeepsUnit u s' ∧ ∀ tags, s.Idle tags u → s'.Idle tags u := by
  rw [setFrame, Action.runFrom_modify, Store.setFrame]
  refine ⟨_, rfl, ?_⟩
  cases m.ownVariables <;>
    exact ⟨rfl, rfl, rfl, fun u => ⟨id, fun tags h =>
      ⟨h.table, h.block, h.verbatims, h.loops, h.defining, h.unit, h.regular, h.known⟩⟩⟩

end Compile

/-! ## Parameters -/

namespace Method

theorem bindFrom_get? {names arguments : List Text} (hlength : names.length = arguments.length)
    (hdistinct : names.Nodup) (hslash : ∀ w ∈ arguments, '\\' ∉ w) (vars : Variables) :
    ∃ vars', bindFrom vars (names.map ('$' :: ·)) arguments = (vars', true) ∧
      (∀ n ∈ names, vars'.get? ('$' :: n) = some (((names.zip arguments).lookup n).getD [])) ∧
      ∀ v, v ∉ names.map ('$' :: ·) → vars'.get? v = vars.get? v := by
  induction names generalizing arguments vars with
  | nil => exact ⟨vars, rfl, by simp, fun _ _ => rfl⟩
  | cons n names ih =>
    obtain ⟨a, arguments, rfl⟩ := exists_cons_of_length_pos (l := arguments) (by simp [← hlength])
    have hsame : a.replace "\\" "\\\\" = a :=
      Text.replace_eq_self_of_not_mem (c := '\\') (by decide) (hslash a mem_cons_self) _
    obtain ⟨hn, hdistinct⟩ := nodup_cons.mp hdistinct
    obtain ⟨vars', hbind, hnames, hother⟩ := ih (by simpa using hlength) hdistinct
      (forall_mem_cons.mp hslash).2 (vars.set ('$' :: n) a)
    have hfresh : '$' :: n ∉ names.map ('$' :: ·) := by simpa using hn
    refine ⟨vars', ?_, ?_, ?_⟩
    · rw [map_cons, bindFrom, hsame, hbind]
    · intro k hk
      rw [zip_cons_cons, lookup_cons]
      by_cases hkn : k = n
      · rw [hkn, hother _ hfresh]
        simp
      · rw [hnames k ((mem_cons.mp hk).resolve_left hkn), beq_false_of_ne hkn]
    · intro v hv
      rw [map_cons, mem_cons, not_or] at hv
      rw [hother v hv.2, Table.get?_set_ne _ hv.1]

end Method

/-! ## Running the lines -/

/-- A line of a body is kept one level less deep than it is written. -/
def Keeps (u : Text) (x : Nat × Item Template) (l : BodyLine) : Prop :=
  l.verbatim = false ∧
    ∃ e, LineEnd e ∧ l.text = sourceLine u (x.1 - 1) (x.2.map Template.source).written e

/-- The lines of a body refer to names that stand for words, and are unreserved with and without the
words. -/
structure Runnable (names : List Text) (env : Text → Text) (body : List (Nat × Item Template)) :
    Prop where
  identifiers : ∀ n ∈ names, n.isName = true
  words : ∀ n ∈ names, isBareWord (env n) = true
  depths : ∀ x ∈ body, 1 ≤ x.1
  fillable : ∀ x ∈ body, x.2.isSound names = true
  source : ∀ x ∈ body, isUnreserved (x.2.map Template.source).written = true
  filled : ∀ x ∈ body, isUnreserved (x.2.map (Template.fill env)).written = true

/-- While an invariant holds, the variables of a method hold what the names stand for. -/
structure Binds (inv : Store → Prop) (m : Method) (names : List Text) (env : Text → Text) : Prop where
  values : ∀ st, inv st → ∀ n ∈ names, (st.frame m).get? ('$' :: n) = some (env n)
  stays : ∀ st, inv st → inv (st.setFrame m (st.frame m))

namespace Does
variable {tags : TagTable} {u : Text} {inv : Store → Prop} {t : Trace} {handle : Handler}
  {m : Method} {names : List Text} {env : Text → Text} {k : Nat} {body : Body}

theorem runLine {x : Nat × Item Template} {l : BodyLine} (hkeeps : Keeps u x l)
    (hu : isUnit u) (hbody : Runnable names env body) (hx : x ∈ body) (hbinds : Binds inv m names env)
    (hline : ∀ tag e, Item.ReadAs tag (x.2.map (Template.fill env)) → LineEnd e →
      Does tags u inv (handle (sourceLine u (k + x.1 - 1) tag e)) t) :
    Does tags u inv (Compile.runLine handle m (u.times k) l) t := by
  obtain ⟨hverbatim, e, he, htext⟩ := hkeeps
  have hshaped := Item.isPlain_fill (hbody.fillable x hx) hbody.words
  have hrun : ∀ st, inv st → _ := fun st hst =>
    Item.runLine_source (hbody.fillable x hx) hbody.identifiers (hbinds.values st hst) hbody.words
      (hbody.source x hx) (hbody.filled x hx) hu he hverbatim htext
  have hfill := hbody.filled x hx
  have hdepth := hbody.depths x hx
  generalize x.2.map (Template.fill env) = i at *
  have hblanks : u.times k ++ sourceLine u (x.1 - 1) i.yielded (i.yieldedEnd e) =
      sourceLine u (k + x.1 - 1) i.yielded (i.yieldedEnd e) := by
    have hsum : k + x.1 - 1 = k + (x.1 - 1) := by omega
    rw [hsum, sourceLine, sourceLine, Text.times_add, append_assoc]
  have hdoes := hline i.yielded (i.yieldedEnd e) (Item.readAs_yielded hshaped hfill)
    (Item.yieldedEnd_lineEnd he i)
  refine of_run hdoes (fun s hi hs => ?_) (fun _ h => h)
  obtain ⟨s', hs', hpage, -, hstore, hkeeps⟩ := Compile.setFrame_run m (s.store.frame m) s
  refine ⟨s', ?_, hpage, (hkeeps u).2 tags hi, hstore ▸ hbinds.stays _ hs, (hkeeps u).1⟩
  simp [Compile.runLine, Action.runFrom_bind, Compile.frame_run, hrun _ hs, hs', hblanks]

theorem runLines {ls : List BodyLine} {ts : List Trace} (hkeeps : Forall₂ (Keeps u) body ls)
    (hu : isUnit u) (hbody : Runnable names env body) (hbinds : Binds inv m names env)
    (hlines : Forall₂ (fun x t => ∀ tag e, Item.ReadAs tag (x.2.map (Template.fill env)) →
      LineEnd e → Does tags u inv (handle (sourceLine u (k + x.1 - 1) tag e)) t) body ts) :
    Does tags u inv (ls.forM (Compile.runLine handle m (u.times k))) ts.flatten := by
  refine forM ((forall₂_join hkeeps hlines).imp fun l t h => ?_)
  obtain ⟨x, hx, hkeep, hline⟩ := h
  exact runLine hkeep hu hbody hx hbinds hline

theorem runMethod {inv' : Store → Prop} {arguments : List Text}
    (hbind : ∀ st, inv st → ∃ vars, m.bindArguments arguments st.globals = (.ok (), vars) ∧
      inv' (st.setFrame m vars)) (hinv : ∀ st, inv' st → inv st)
    (hlines : Does tags u inv' (m.lines.forM (Compile.runLine handle m (u.times k))) t) :
    Does tags u inv (Compile.runMethod handle m arguments (u.times k)) t := by
  refine of_run hlines (fun s hi hs => ?_) hinv
  obtain ⟨vars, hvars, hstart⟩ := hbind _ hs
  obtain ⟨s', hs', hpage, -, hstore, hkeeps⟩ := Compile.setFrame_run m vars s
  refine ⟨s', ?_, hpage, (hkeeps u).2 tags hi, hstore ▸ hstart, (hkeeps u).1⟩
  have hvars' : m.bindArguments arguments s.globals = (.ok (), vars) := hvars
  simp [Compile.runMethod, Action.runFrom_bind, hvars', hs']

end Does

/-! ## A run on its own -/

namespace Compile
variable {m : Method} {vars : Variables} {s : Session}

/-- A method whose lines are reported has run as on its own. -/
structure Reports (m : Method) (space : Text) (s : Session) (r : Method.Run)
    (x : Except Fault Unit × Session) : Prop where
  result : x.1 = r.fault.elim (.ok ()) .error
  vars : x.2.store.frame m = r.vars
  messages : x.2.messages = s.messages ++ r.yielded.flatMap (Option.elim · [] (space ++ · ++ ['\n']))

theorem runLine_report (space : Text) {l : BodyLine} {out : Option Text}
    (h : Method.runLine (s.store.frame m) l = .ok (out, vars)) :
    ∃ s', (runLine report m space l).runFrom s = (.ok (), s') ∧
      Reports m space s ⟨[out], vars, none⟩ (.ok (), s') := by
  obtain ⟨s₁, hset, -, hmessages, hstore, -⟩ := setFrame_run m vars s
  have hframe : s₁.store.frame m = vars := by rw [hstore, Store.frame_setFrame]
  rw [runLine, Action.runFrom_bind_ok frame_run, h, Action.runFrom_bind_ok (Action.runFrom_liftM ..),
    Action.runFrom_bind_ok hset]
  cases out with
  | none => exact ⟨s₁, rfl, rfl, hframe, by simp [hmessages]⟩
  | some line => exact ⟨_, rfl, rfl, hframe, by rw [← hmessages]; simp [Session.messages]⟩

theorem runLines_report (m : Method) (space : Text) (ls : List BodyLine) (s : Session) :
    Reports m space s (Method.runLines (s.store.frame m) ls) ((ls.forM (runLine report m space)).runFrom s) := by
  induction ls generalizing s with
  | nil => exact ⟨rfl, rfl, (append_nil _).symm⟩
  | cons l ls ih =>
    rw [Method.runLines]
    cases hl : Method.runLine (s.store.frame m) l with
    | error f =>
      have hrun : (runLine report m space l).runFrom s = (.error f, s) := by
        rw [runLine, Action.runFrom_bind_ok frame_run, hl]
        rfl
      rw [Action.runFrom_forM_cons, hrun]
      exact ⟨rfl, rfl, (append_nil _).symm⟩
    | ok x =>
      obtain ⟨s₁, hrun, hs₁⟩ := runLine_report space hl
      have hrest := ih s₁
      rw [hs₁.vars] at hrest
      rw [Action.runFrom_forM_cons_ok hrun]
      refine ⟨hrest.result, hrest.vars, ?_⟩
      rw [hrest.messages, hs₁.messages, append_assoc, ← flatMap_append]
      rfl

/-- What a method yields on its own is what is handled when it is called, and it ends with the same
variables and the same fault. -/
theorem runMethod_report (m : Method) (arguments : List Text) (space : Text) (s : Session) :
    Reports m space s (m.run arguments s.globals) ((runMethod report m arguments space).runFrom s) := by
  rw [runMethod, Method.run, Action.runFrom_bind_ok (Action.runFrom_get s)]
  rcases m.bindArguments arguments s.globals with ⟨bound, vars⟩
  obtain ⟨s₁, hset, -, hmessages, hstore, -⟩ := setFrame_run m vars s
  obtain rfl : s₁.store.frame m = vars := by rw [hstore, Store.frame_setFrame]
  rw [Action.runFrom_bind_ok hset]
  cases bound with
  | error f => exact ⟨rfl, rfl, hmessages.trans (append_nil _).symm⟩
  | ok _ =>
    have hlines := runLines_report m space m.lines s₁
    exact ⟨hlines.result, hlines.vars, hmessages ▸ hlines.messages⟩

end Compile
end OutlineMarkup
