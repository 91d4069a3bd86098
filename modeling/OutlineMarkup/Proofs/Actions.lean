import OutlineMarkup.Session

/-!
# Running actions

An action run from a state gives a result and a state. The lemmas say what the parts of an action
give, so that a run is followed step by step without opening the definition of actions.
-/

namespace OutlineMarkup

/-- What a line is handed to. -/
abbrev Handler := Text → Compile Unit

namespace Action

variable {σ α β : Type}

theorem runFrom_bind (x : Action σ α) (f : α → Action σ β) (s : σ) :
    (x >>= f).runFrom s =
      match x.runFrom s with
      | (.ok a, t) => (f a).runFrom t
      | (.error e, t) => (.error e, t) := by
  simp only [runFrom, ExceptT.run_bind, StateT.run_bind]
  rcases StateT.run (ExceptT.run x) s with ⟨r, t⟩
  cases r <;> rfl

variable {s t : σ} {f : α → Action σ PUnit}

theorem runFrom_bind_ok {x : Action σ α} {f : α → Action σ β} {a : α}
    (h : x.runFrom s = (.ok a, t)) : (x >>= f).runFrom s = (f a).runFrom t := by
  rw [runFrom_bind, h]

theorem runFrom_bind_error {x : Action σ α} {f : α → Action σ β} {e : Fault}
    (h : x.runFrom s = (.error e, t)) : (x >>= f).runFrom s = (.error e, t) := by
  rw [runFrom_bind, h]

theorem runFrom_bind_fst_error {x : Action σ α} {f : α → Action σ β} {e : Fault}
    (h : (x.runFrom s).1 = .error e) : ((x >>= f).runFrom s).1 = .error e := by
  rcases hx : x.runFrom s with ⟨a, t⟩
  rw [hx] at h
  obtain rfl : a = .error e := h
  rw [runFrom_bind_error hx]

@[simp] theorem runFrom_pure (a : α) (s : σ) : (pure a : Action σ α).runFrom s = (.ok a, s) := rfl

@[simp] theorem runFrom_throw (f : Fault) (s : σ) : (throw f : Action σ α).runFrom s = (.error f, s) := rfl

@[simp] theorem runFrom_get (s : σ) : (get : Action σ σ).runFrom s = (.ok s, s) := rfl

@[simp] theorem runFrom_set (s t : σ) : (set t : Action σ PUnit).runFrom s = (.ok ⟨⟩, t) := rfl

@[simp] theorem runFrom_modify (g : σ → σ) (s : σ) :
    (modify g : Action σ PUnit).runFrom s = (.ok ⟨⟩, g s) := rfl

@[simp] theorem runFrom_liftM (e : Except Fault α) (s : σ) : (liftM e : Action σ α).runFrom s = (e, s) := by
  cases e <;> rfl

theorem runFrom_discard (x : Action σ α) (s : σ) :
    (discard x).runFrom s = match x.runFrom s with
      | (.ok _, t) => (.ok (), t)
      | (.error e, t) => (.error e, t) := by
  have hbind : discard x = x >>= fun _ => pure () := rfl
  rw [hbind, runFrom_bind]
  rcases x.runFrom s with ⟨r, t⟩
  cases r <;> rfl

theorem runFrom_tryCatch (x : Action σ α) (h : Fault → Action σ α) (s : σ) :
    (tryCatch x h).runFrom s =
      match x.runFrom s with
      | (.ok a, t) => (.ok a, t)
      | (.error e, t) => (h e).runFrom t := by
  simp only [runFrom, ExceptT.run_tryCatch, StateT.run_bind]
  rcases StateT.run (ExceptT.run x) s with ⟨r, t⟩
  cases r <;> rfl

/-! ## Repetition -/

theorem runFrom_times_succ_ok {x : Action σ Unit} (h : x.runFrom s = (.ok (), t))
    (n : Nat) : (times x (n + 1)).runFrom s = (times x n).runFrom t := by
  rw [times, runFrom_bind_ok h]

theorem runFrom_forM_cons (a : α) (as : List α) (s : σ) : ((a :: as).forM f).runFrom s =
      match (f a).runFrom s with
      | (.ok _, t) => (as.forM f).runFrom t
      | (.error e, t) => (.error e, t) := by
  rw [List.forM_eq_forM, List.forM_cons, runFrom_bind]
  rcases (f a).runFrom s with ⟨r, t⟩
  cases r <;> rfl

theorem runFrom_forM_cons_ok {a : α} (h : (f a).runFrom s = (.ok ⟨⟩, t)) (as : List α) :
    ((a :: as).forM f).runFrom s = (as.forM f).runFrom t := by
  rw [runFrom_forM_cons, h]

theorem runFrom_forM_append (as bs : List α) (s : σ) : ((as ++ bs).forM f).runFrom s =
      match (as.forM f).runFrom s with
      | (.ok _, t) => (bs.forM f).runFrom t
      | (.error e, t) => (.error e, t) := by
  induction as generalizing s with
  | nil => simp
  | cons a as ih =>
    rw [List.cons_append, runFrom_forM_cons, runFrom_forM_cons]
    rcases (f a).runFrom s with ⟨r, t⟩
    cases r with
    | ok _ => exact ih t
    | error e => rfl

theorem runFrom_forM_append_ok {as : List α} (h : (as.forM f).runFrom s = (.ok ⟨⟩, t)) (bs : List α) :
    ((as ++ bs).forM f).runFrom s = (bs.forM f).runFrom t := by
  rw [runFrom_forM_append, h]

end Action
end OutlineMarkup
