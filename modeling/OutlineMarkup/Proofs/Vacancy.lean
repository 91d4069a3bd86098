import OutlineMarkup.Proofs.LoopLines

/-!
# Sessions without open elements

Texts and calls leave entries behind that nothing closes. While only such entries are open, a line at the
left edge takes off as many as its place asks for, and writes nothing while it does.
-/

namespace OutlineMarkup
open Action List

namespace Page

/-- The page when a line at the left edge has been entered. -/
def edge (entry : Option Text) (p : Page) : Page :=
  { p with elements := entry :: p.elements.drop p.room, level := 0, fresh := false }

end Page

namespace Session

/-- No method and no verbatim block is being collected, and no element is open. Kinds of verbatim blocks
are not named like the lines that variables and loops make. -/
structure Vacant (u : Text) (s : Session) : Prop where
  block : s.block = none
  defining : s.defining = none
  unit : s.indentation.unit = some u ∨ s.indentation.unit = none
  level : 0 ≤ s.indentation.level
  entries : ∀ entry ∈ s.elements, entry = none
  kinds : ∀ name, s.verbatims.has name = true → '$' ∉ name ∧ ∀ i, name ≠ Compile.loopName i

def withGlobals (s : Session) (vars : Variables) : Session := { s with globals := vars }

variable {tags : TagTable} {u : Text} {k : Nat} {s : Session}

theorem Idle.vacant (h : s.Idle tags u) (hentries : ∀ entry ∈ s.elements, entry = none) : s.Vacant u := by
  refine ⟨h.block, h.defining, h.unit.imp id And.left, h.regular.nonneg, hentries, fun name hname => ?_⟩
  rw [h.verbatims] at hname
  cases hname

theorem Idle.withGlobals (h : s.Idle tags u) (vars : Variables) : (s.withGlobals vars).Idle tags u :=
  ⟨h.table, h.block, h.verbatims, h.loops, h.defining, h.unit, h.regular, h.known⟩

theorem Vacant.withGlobals (h : s.Vacant u) (vars : Variables) : (s.withGlobals vars).Vacant u :=
  ⟨h.block, h.defining, h.unit, h.level, h.entries, h.kinds⟩

theorem Vacant.edge (h : s.Vacant u) : (s.withPage (s.page.edge none)).Vacant u := by
  refine ⟨h.block, h.defining, h.unit, Int.le_refl 0, fun entry hentry => ?_, h.kinds⟩
  rcases mem_cons.mp hentry with rfl | hentry
  · rfl
  · exact h.entries entry (mem_of_mem_drop hentry)

theorem Vacant.reads (h : s.Vacant u) (hk : k ≤ 1) : s.Reads u k := h.unit.imp id fun hnone => ⟨hnone, hk⟩

end Session

namespace Text

theorem mem_trimOf {s : Text} {p : Char → Bool} {c : Char} (h : c ∈ s) (hc : p c = false) : c ∈ s.trimOf p := by
  have hdrop : ∀ t : Text, c ∈ t → c ∈ t.dropWhile p := by
    intro t ht
    rw [← takeWhile_append_dropWhile (p := p) (l := t)] at ht
    refine (mem_append.mp ht).resolve_left fun htake => ?_
    rw [mem_takeWhile_imp htake] at hc
    cases hc
  exact mem_reverse.mpr (hdrop _ (mem_reverse.mpr (hdrop s h)))

theorem mem_before_cons {s part : Text} {c : Char} (h : part.isPrefixOf (c :: s) = false) : c ∈ before (c :: s) part := by
  rw [before, cut?, h]
  cases s.cut? part with
  | none | some x => exact mem_cons_self

end Text

namespace Compile
variable {handle : Handler} {u v e tag : Text} {items : List Text} {s : Session}

/-! ## Entries without an end -/

theorem closeTimes_vacant (hentries : ∀ entry ∈ s.elements, entry = none) (n : Nat) :
    (times closeLast n).runFrom s =
      if n ≤ s.elements.length then (.ok (), { s with elements := s.elements.drop n })
      else (.error .outOfRange, { s with elements := [] }) := by
  induction n generalizing s with
  | zero => rfl
  | succ n ih =>
    cases helements : s.elements with
    | nil =>
      have hclose : closeLast.runFrom s = (.error .outOfRange, s) := by
        simp only [closeLast, runFrom_bind, runFrom_get, helements]
        rfl
      rw [times, runFrom_bind_error hclose]
      cases s
      cases helements
      rfl
    | cons entry rest =>
      rw [helements] at hentries
      obtain rfl := hentries entry mem_cons_self
      have hclose : closeLast.runFrom s = (.ok (), { s with elements := rest }) := by
        simp only [closeLast, runFrom_bind, runFrom_get, helements, runFrom_set]
        rfl
      rw [runFrom_times_succ_ok hclose, ih (forall_mem_cons.mp hentries).2]
      simp

theorem enter_edge (hdefining : s.defining = none) (hlevel : 0 ≤ s.indentation.level)
    (hentries : ∀ entry ∈ s.elements, entry = none) (entry : Option Text) :
    (enter ((0 : Nat) : Int) (some entry)).runFrom s =
      if s.page.room ≤ s.elements.length then (.ok (), s.withPage (s.page.edge entry))
      else (.error .outOfRange, { s with elements := [] }) := by
  have hdef := Session.isDefining_eq_false hdefining
  have hblanks : (blanks ((0 : Nat) : Int)).runFrom s = (.ok [], s) := blanks_run (u := []) (Or.inr rfl)
  have hdepth : (depthOf ([] ++ ['|'])).runFrom s = (.ok 0, s) := rfl
  have hclosings : s.indentation.closings 0 = .ok s.page.room := by
    unfold Indentation.closings Page.room
    have hfresh : s.page.fresh = s.indentation.fresh := rfl
    have hsame : s.page.level = s.indentation.level := rfl
    rw [hfresh, hsame]
    have hrise : ((0 : Nat) : Int) - s.indentation.level < 1 := by omega
    cases s.indentation.fresh with
    | true =>
      simp only [Bool.not_true, Bool.and_false, Bool.false_eq_true, if_false, if_true]
      rw [if_neg (by omega)]
    | false =>
      simp only [decide_eq_true hrise, Bool.not_false, Bool.and_self, if_true, Bool.false_eq_true, if_false]
      congr 1
      omega
  have hclose := closeTimes_vacant hentries s.page.room
  simp only [enter, runFrom_bind, runFrom_get, hdef, Bool.false_eq_true, if_false, hblanks, hdepth,
    hclosings, runFrom_liftM, hclose]
  by_cases hroom : s.page.room ≤ s.elements.length
  · simp only [if_pos hroom]
    rfl
  · simp only [if_neg hroom]

theorem writeLine_edge (hs : s.Vacant u) {opening : Text} (hopening : '\\' ∉ opening) (closing element : Option Text) :
    (writeLine 0 [] opening closing element).runFrom s = if s.page.room ≤ s.elements.length then
        (.ok (), { s.withPage (s.page.edge closing) with lastElement := element, written := opening.reverse ++ s.written })
      else (.error .outOfRange, { s with elements := [] }) := by
  have henter := enter_edge hs.defining hs.level hs.entries closing
  split
  · rename_i hroom
    rw [if_pos hroom] at henter
    rw [writeLine, runFrom_bind_ok henter, runFrom_bind, runFrom_modify]
    exact write_run hopening
  · rename_i hroom
    rw [if_neg hroom] at henter
    rw [writeLine, runFrom_bind_error henter]

theorem closeAll_vacant {t : Session} (hblock : s.block = none) (hdefining : s.defining = none)
    (hunroll : (unrollAll handle s.depthBound).runFrom s = (.ok (), t))
    (hentries : ∀ entry ∈ t.elements, entry = none) :
    (closeAll handle).runFrom s = (.ok (), { t with elements := [] }) := by
  have hdef := Session.isDefining_eq_false hdefining
  have hclose := closeTimes_vacant hentries t.elements.length
  rw [if_pos (Nat.le_refl _), drop_length] at hclose
  simp [closeAll, runFrom_bind, hblock, hdef, hunroll, hclose]

/-! ## Lines -/

theorem blockName_of_mem {tag : Text} (h : '$' ∈ tag.before "(") (hs : s.Vacant u) :
    s.verbatims.has (blockName tag) = false := by
  rw [Bool.eq_false_iff]
  intro hhas
  exact (hs.kinds _ hhas).1 (Text.mem_trimOf h rfl)

theorem line_loop_vacant (handle : Handler) (h : IsHeader v items) (hu : isUnit u)
    (he : LineEnd e) (hs : s.Vacant u) (hfresh : s.globals.get? ('$' :: v) = none) :
    (line handle (sourceLine u 0 (loopText v items) e)).runFrom s =
      if s.page.room ≤ s.elements.length then (.ok (), (s.withPage (s.page.edge none)).withLoop v 0 items)
      else (.error .outOfRange, { s with elements := [] }) := by
  have hname : '$' ∈ (loopText v items).before "(" := by
    rw [Text.before_eq_self (Text.has_eq_false_of_not_mem (c := '(') (by decide) (h.not_mem rfl (by decide)))]
    simp [loopText]
  have hrun := line_startLoop handle h hu he hs.block (blockName_of_mem hname hs) hs.defining (hs.reads (Nat.zero_le 1))
  have henter := enter_edge hs.defining hs.level hs.entries none
  have hlearn : s.learn u 0 = s := rfl
  rw [hrun, hlearn]
  split
  · rename_i hroom
    rw [if_pos hroom] at henter
    exact startLoop_run h hfresh henter
  · rename_i hroom
    rw [if_neg hroom] at henter
    rw [startLoop, runFrom_bind_error henter]

end Compile
end OutlineMarkup
