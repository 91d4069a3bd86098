import OutlineMarkup.ArrayIndex
import OutlineMarkup.Proofs.Texts

/-!
# The loop over indexed arrays

Indexed arrays are resolved one after the other, as long as a bracket that closes meets one that opens.
What takes the place of an array with its index is an item of that array: it was cut out of the text
before the index, so it is shorter, also where quotes or brackets do not match. Main statement: every
step fails or shortens the line, so every run of the loop ends, and the bound on the number of steps is
never reached.
-/

namespace OutlineMarkup.ArrayIndex
open List

/-! ## Reading backwards -/

namespace Scan
variable {st : Scan} {c previous : Char}

theorem step_cases (st : Scan) (c previous : Char) :
    ((st.step c previous).items = st.items ∧ (st.step c previous).buffer.length ≤ st.buffer.length + 1) ∨
      ((st.step c previous).items = st.buffer.trim :: st.items ∧ (st.step c previous).buffer = []) := by
  have hkeep : ∀ t : Scan, t.items = st.items → t.buffer = st.buffer →
      (t.keep c).items = st.items ∧ (t.keep c).buffer.length ≤ st.buffer.length + 1 := by
    intro t hitems hbuffer
    refine ⟨hitems, ?_⟩
    rw [keep, length_cons, hbuffer]
  unfold step
  split
  · dsimp only
    split
    · exact .inl (hkeep _ rfl rfl)
    · exact .inl ⟨rfl, Nat.le_succ _⟩
  split
  · dsimp only
    split
    · exact .inl (hkeep _ rfl rfl)
    · exact .inl ⟨rfl, Nat.le_succ _⟩
  split
  · exact .inl (hkeep _ rfl rfl)
  split
  · exact .inl (hkeep _ rfl rfl)
  split
  · exact .inr ⟨rfl, rfl⟩
  · exact .inl (hkeep _ rfl rfl)

theorem mem_step_items {x : Text} (h : x ∈ (st.step c previous).items) :
    x ∈ st.items ∨ x.length ≤ st.buffer.length := by
  rcases step_cases st c previous with ⟨hitems, _⟩ | ⟨hitems, _⟩
  · rw [hitems] at h
    exact .inl h
  · rw [hitems] at h
    rcases mem_cons.mp h with rfl | h
    · exact .inr (Text.length_trim_le _)
    · exact .inl h

theorem length_step_buffer (st : Scan) (c previous : Char) :
    (st.step c previous).buffer.length ≤ st.buffer.length + 1 := by
  rcases step_cases st c previous with ⟨_, hbuffer⟩ | ⟨_, hbuffer⟩
  · exact hbuffer
  · rw [hbuffer]
    exact Nat.zero_le _

/-- The items come from the text right of the place where the reading stops. -/
theorem run_bounds (around : Char) (reversed : Text) (st : Scan) :
    (run around reversed st).2 ≤ reversed.length ∧ ∀ x ∈ (run around reversed st).1,
        x ∈ st.items ∨ x.length + (run around reversed st).2 ≤ st.buffer.length + reversed.length := by
  induction reversed generalizing st with
  | nil => exact ⟨Nat.le_refl 0, fun x hx => .inl hx⟩
  | cons c rest ih =>
    have hlength := length_step_buffer st c (rest.head?.getD around)
    have hmem : ∀ x ∈ (st.step c (rest.head?.getD around)).items,
        x ∈ st.items ∨ x.length ≤ st.buffer.length := fun x hx => mem_step_items hx
    rw [run]
    generalize st.step c (rest.head?.getD around) = next at hlength hmem
    dsimp only
    split
    · refine ⟨Nat.le_succ _, ?_⟩
      intro x hx
      have hx' : x ∈ next.items ∨ x = next.buffer.trim := by
        dsimp only at hx
        split at hx
        · exact .inl hx
        · exact (mem_cons.mp hx).symm
      rcases hx' with hx | rfl
      · rcases hmem x hx with hx | hx
        · exact .inl hx
        · right
          rw [length_cons]
          omega
      · have htrim := Text.length_trim_le next.buffer
        right
        rw [length_cons]
        dsimp only
        omega
    · obtain ⟨hle, hitems⟩ := ih next
      refine ⟨Nat.le_succ_of_le hle, ?_⟩
      intro x hx
      rw [length_cons]
      rcases hitems x hx with hx | hx
      · rcases hmem x hx with hx | hx
        · exact .inl hx
        · omega
      · omega

end Scan

theorem lastArray_bounds (head : Text) : (lastArray (head ++ [']'])).2 ≤ head.length ∧
      ∀ x ∈ (lastArray (head ++ [']'])).1, x.length + (lastArray (head ++ [']'])).2 ≤ head.length := by
  have hfirst : lastArray (head ++ [']']) = Scan.run ']' head.reverse { brackets := 1 } := by
    rw [lastArray, reverse_concat]
    rfl
  obtain ⟨hle, hitems⟩ := Scan.run_bounds ']' head.reverse { brackets := 1 }
  rw [hfirst]
  rw [length_reverse] at hle hitems
  refine ⟨hle, ?_⟩
  intro x hx
  rcases hitems x hx with hx | hx
  · exact absurd hx not_mem_nil
  · simpa using hx

theorem mem_of_item? {items : List Text} {i : Int} {x : Text} (h : item? items i = some x) : x ∈ items := by
  unfold item? at h
  split at h
  · split at h
    · exact mem_of_getElem? h
    · cases h
  · exact mem_of_getElem? h

/-! ## Steps -/

theorem resolveFirst_cases {line : Text} (h : line.has "][") :
    (∃ why, resolveFirst line = .error (.rejected why)) ∨
      ∃ next, resolveFirst line = .ok next ∧ next.length < line.length := by
  obtain ⟨⟨head, after⟩, hcut⟩ := Option.isSome_iff_exists.mp h
  have hline := Text.eq_of_cut? hcut
  obtain ⟨hstart, hitems⟩ := lastArray_bounds head
  unfold resolveFirst
  rw [hcut]
  dsimp only
  generalize Text.before (((after.cut? "][").map (·.1)).getD after) "]" = index
  split
  · exact .inl ⟨_, rfl⟩
  split
  · exact .inl ⟨_, rfl⟩
  · rename_i new hnew
    refine .inr ⟨_, rfl, ?_⟩
    have hshort := hitems new (mem_of_item? hnew)
    have hlength : line.length = head.length + (2 + after.length) := by
      rw [hline, length_append, length_append]
      rfl
    have hinfix : (line.take (head.length + index.length + 3)).drop (lastArray (head ++ [']'])).2 <:+: line :=
      (drop_suffix _ _).isInfix.trans <| IsPrefix.isInfix <| take_prefix _ _
    have hlonger : new.length <
        ((line.take (head.length + index.length + 3)).drop (lastArray (head ++ [']'])).2).length := by
      rw [length_drop, length_take]
      omega
    exact (Text.length_replace hlonger line).2 hinfix

/-! ## Runs -/

/-- A run of the loop with its result: steps are taken while a closing bracket meets an opening one. -/
inductive Runs : Text → Except Fault Text → Prop where
  | done {line : Text} (h : line.has "][" = false) : Runs line (.ok line)
  | failed {line : Text} {f : Fault} (h : line.has "][" = true) (hstep : resolveFirst line = .error f) :
      Runs line (.error f)
  | step {line next : Text} {r : Except Fault Text} (h : line.has "][" = true)
      (hstep : resolveFirst line = .ok next) (hrest : Runs next r) : Runs line r

theorem Runs.unique {line : Text} {r r' : Except Fault Text} (h : Runs line r) (h' : Runs line r') : r = r' := by
  induction h with
  | done hnone =>
    cases h' with
    | done _ => rfl
    | failed hsome _ | step hsome _ _ => rw [hnone] at hsome; cases hsome
  | failed hsome hstep =>
    cases h' with
    | done hnone => rw [hsome] at hnone; cases hnone
    | failed _ hstep' => rw [hstep] at hstep'; cases hstep'; rfl
    | step _ hstep' _ => rw [hstep] at hstep'; cases hstep'
  | step hsome hstep _ ih =>
    cases h' with
    | done hnone => rw [hsome] at hnone; cases hnone
    | failed _ hstep' => rw [hstep] at hstep'; cases hstep'
    | step _ hstep' hrest' =>
      rw [hstep] at hstep'
      cases hstep'
      exact ih hrest'

theorem Runs.result {line : Text} {r : Except Fault Text} (h : Runs line r) :
    (∃ why, r = .error (.rejected why)) ∨ ∃ out : Text, r = .ok out ∧ out.has "][" = false := by
  induction h with
  | done hnone => exact .inr ⟨_, rfl, hnone⟩
  | failed hsome hstep =>
    rcases resolveFirst_cases hsome with ⟨why, herror⟩ | ⟨next, hok, _⟩
    · rw [hstep] at herror
      cases herror
      exact .inl ⟨why, rfl⟩
    · rw [hstep] at hok
      cases hok
  | step _ _ _ ih => exact ih

theorem runs_resolveAll {fuel : Nat} {line : Text} (h : line.length ≤ fuel) : Runs line (resolveAll fuel line) := by
  induction fuel generalizing line with
  | zero =>
    obtain rfl := length_eq_zero_iff.mp (Nat.le_zero.mp h)
    exact .done rfl
  | succ fuel ih =>
    rw [resolveAll]
    cases hmeet : line.has "][" with
    | false => exact .done hmeet
    | true =>
      rw [if_pos rfl]
      rcases resolveFirst_cases hmeet with ⟨why, hstep⟩ | ⟨next, hstep, hshort⟩
      · rw [hstep]
        exact .failed hmeet hstep
      · rw [hstep]
        exact .step hmeet hstep (ih (by omega))

theorem runs_resolve (line : Text) : Runs line (resolve line) := runs_resolveAll (Nat.le_refl _)

theorem Runs.resolve_eq {line : Text} {r : Except Fault Text} (h : Runs line r) : resolve line = r :=
  (runs_resolve line).unique h

/-- On every line the loop ends: each of its steps is rejected or shortens the line, a run with finitely
many steps leads to the result, no fault but a rejection comes out, and no brackets meet in a line that
is returned. -/
theorem resolve_terminates (line : Text) :
    (line.has "][" = true → (∃ why, resolveFirst line = .error (.rejected why)) ∨
      ∃ next, resolveFirst line = .ok next ∧ next.length < line.length) ∧
    Runs line (resolve line) ∧
    ((∃ why, resolve line = .error (.rejected why)) ∨
      ∃ out : Text, resolve line = .ok out ∧ out.has "][" = false) :=
  ⟨resolveFirst_cases, runs_resolve line, (runs_resolve line).result⟩

/-- The bracket that opens the array is missing, so the array starts with the line. -/
theorem resolve_terminates_unbalanced :
    Text.has "x, y][-1]z" "][" = true ∧
      ((∃ why, resolveFirst "x, y][-1]z" = .error (.rejected why)) ∨
        ∃ next : Text, resolveFirst "x, y][-1]z" = .ok next ∧ next.length < 10) ∧
      resolve "x, y][-1]z" = .ok "yz" :=
  ⟨by decide, (resolve_terminates "x, y][-1]z").1 (by decide), by decide⟩

end OutlineMarkup.ArrayIndex
