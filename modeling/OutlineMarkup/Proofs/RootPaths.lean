import Mathlib.Data.List.Chain
import OutlineMarkup.Indentation

/-!
# Paths to the root

Lines are entered into a nesting one after another. As long as every line can be entered, the entries
are those of the latest line and of the lines that enclose it: the latest line before it that is one
level less deep, the latest one before that which is one level less deep again, and so on.
-/

namespace OutlineMarkup
open List Indentation

universe u

namespace Nesting
variable {α : Type u}

/-- Enters lines with their entries, up to the first that cannot be entered. -/
def enterAll (n : Nesting α) : List (Text × α) → Except Fault (Nesting α)
  | [] => .ok n
  | (line, a) :: rest =>
    match n.enter line a with
    | (.error f, _) => .error f
    | (.ok (), n) => enterAll n rest

/-- The entries of lines with the depths at which the lines are found when they are entered in
turn. -/
def measure (t : Indentation) : List (Text × α) → List (Nat × α)
  | [] => []
  | (line, a) :: rest =>
    match t.depth line with
    | .error _ => []
    | .ok (d, t) => (d, a) :: measure (t.place d) rest

/-- What encloses a line at a depth, innermost first: the latest of the lines before it that is one
level less deep, and what encloses that one. The latest line stands first. -/
def enclosing (d : Nat) : List (Nat × α) → List (Nat × α)
  | [] => []
  | x :: earlier => if x.1 + 1 = d then x :: enclosing x.1 earlier else enclosing d earlier

/-- The latest line and what encloses it. -/
def rootPath : List (Nat × α) → List (Nat × α)
  | [] => []
  | x :: earlier => x :: enclosing x.1 earlier

/-! ## Paths of climbing lines -/

/-- Depths rise by at most one from a line to the next. -/
def Climbs (history : List (Nat × α)) : Prop := history.IsChain fun later earlier => later.1 ≤ earlier.1 + 1

/-- No line is less deep than the first one. -/
def FirstLowest (history : List (Nat × α)) : Prop :=
  ∀ base ∈ history.getLast?, ∀ x ∈ history, base.1 ≤ x.1

variable {history earlier : List (Nat × α)} {x : Nat × α} {d e : Nat}

theorem Climbs.tail (h : Climbs (x :: earlier)) : Climbs earlier := IsChain.tail h

theorem Climbs.head (h : Climbs (x :: earlier)) : ∀ y ∈ earlier.head?, x.1 ≤ y.1 + 1 := by
  intro y hy
  obtain ⟨rest, rfl⟩ := head?_eq_some_iff.mp hy
  exact (isChain_cons_cons.mp h).1

theorem FirstLowest.tail (h : FirstLowest (x :: earlier)) : FirstLowest earlier := by
  intro base hbase y hy
  have hlast : base ∈ (x :: earlier).getLast? := by
    rw [getLast?_cons, Option.mem_def.mp hbase]
    rfl
  exact h base hlast y (mem_cons_of_mem _ hy)

theorem enclosing_eq_drop (hclimbs : Climbs history) (hhead : ∀ y ∈ history.head?, e ≤ y.1 + 1)
    (hde : d ≤ e) : enclosing d history = (enclosing e history).drop (e - d) := by
  induction history generalizing e with
  | nil => simp [enclosing]
  | cons x earlier ih =>
    have hx : e ≤ x.1 + 1 := hhead x rfl
    by_cases heq : d = e
    · subst heq
      simp
    have hne : x.1 + 1 ≠ d := by omega
    rw [enclosing, enclosing, if_neg hne]
    by_cases hxe : x.1 + 1 = e
    · -- The line encloses the greater depth; below it the search goes on from its own depth.
      have hsum : e - d = x.1 - d + 1 := by omega
      rw [if_pos hxe, hsum, drop_succ_cons]
      apply ih hclimbs.tail hclimbs.head
      omega
    · rw [if_neg hxe]
      apply ih hclimbs.tail _ hde
      intro y hy
      have := hclimbs.head y hy
      omega

theorem rootPath_eq (x : Nat × α) (earlier : List (Nat × α)) :
    rootPath (x :: earlier) = enclosing (x.1 + 1) (x :: earlier) := by
  rw [rootPath, enclosing, if_pos rfl]

theorem enclosing_eq_drop_rootPath (hclimbs : Climbs (x :: earlier)) (hd : d ≤ x.1 + 1) :
    enclosing d (x :: earlier) = (rootPath (x :: earlier)).drop (x.1 + 1 - d) := by
  rw [rootPath_eq]
  apply enclosing_eq_drop hclimbs _ hd
  intro y hy
  cases hy
  exact Nat.le_refl _

theorem length_enclosing (hclimbs : Climbs history) (hlowest : FirstLowest history)
    (hhead : ∀ y ∈ history.head?, d ≤ y.1 + 1) {base : Nat × α} (hbase : base ∈ history.getLast?)
    (hd : base.1 ≤ d) : (enclosing d history).length = d - base.1 := by
  induction history generalizing d with
  | nil => cases hbase
  | cons x earlier ih =>
    have hx : d ≤ x.1 + 1 := hhead x rfl
    have hbx : base.1 ≤ x.1 := hlowest base hbase x mem_cons_self
    rw [enclosing]
    cases earlier with
    | nil =>
      obtain rfl : x = base := by simpa using hbase
      by_cases hxd : x.1 + 1 = d
      · rw [if_pos hxd]
        simp only [enclosing, length_cons, length_nil]
        omega
      · rw [if_neg hxd]
        simp only [enclosing, length_nil]
        omega
    | cons y earlier =>
      have hbase' : base ∈ (y :: earlier).getLast? := by
        rw [getLast?_cons_cons] at hbase
        exact hbase
      have hclimb := hclimbs.head y rfl
      by_cases hxd : x.1 + 1 = d
      · rw [if_pos hxd, length_cons, ih hclimbs.tail hlowest.tail hclimbs.head hbase' hbx]
        omega
      · rw [if_neg hxd]
        apply ih hclimbs.tail hlowest.tail _ hbase' hd
        intro z hz
        have := hclimbs.head z hz
        omega

theorem length_rootPath (hclimbs : Climbs (x :: earlier)) (hlowest : FirstLowest (x :: earlier))
    {base : Nat × α} (hbase : base ∈ (x :: earlier).getLast?) :
    (rootPath (x :: earlier)).length = x.1 + 1 - base.1 := by
  have hbx : base.1 ≤ x.1 := hlowest base hbase x mem_cons_self
  rw [rootPath_eq]
  apply length_enclosing hclimbs hlowest _ hbase
  · omega
  · intro y hy
    cases hy
    exact Nat.le_refl _

/-! ## Entering a line -/

/-- The nesting is the one that the lines leave. -/
structure Follows (history : List (Nat × α)) (n : Nesting α) : Prop where
  entries : n.entries = (rootPath history).map Prod.snd
  level : n.indentation.level = (history.head?.map fun x => (x.1 : Int)).getD 0
  fresh : n.indentation.fresh = history.isEmpty
  climbs : Climbs history
  lowest : FirstLowest history

namespace Follows
variable {n : Nesting α} {line : Text} {t : Indentation} {a : α}

theorem start : Follows ([] : List (Nat × α)) {} where
  entries := rfl
  level := rfl
  fresh := rfl
  climbs := .nil
  lowest := by
    intro base hbase
    cases hbase

theorem level_nonneg (h : Follows history n) : 0 ≤ n.indentation.level := by
  rw [h.level]
  cases history with
  | nil => exact Int.le_refl 0
  | cons x earlier => exact Int.natCast_nonneg x.1

variable {base : Nat × α}

theorem length_entries (h : Follows (x :: earlier) n)
    (hbase : base ∈ (x :: earlier).getLast?) : n.entries.length = x.1 + 1 - base.1 := by
  rw [h.entries, length_map, length_rootPath h.climbs h.lowest hbase]

section
variable (hdepth : n.indentation.depth line = .ok (d, t))
include hdepth

theorem depth_spec :
    t.level = n.indentation.level ∧ t.fresh = n.indentation.fresh ∧ (1 < d → t = n.indentation) := by
  cases line with
  | nil => cases hdepth
  | cons c s =>
    rw [depth] at hdepth
    split at hdepth
    · split at hdepth
      · cases hdepth
        exact ⟨rfl, rfl, fun h => absurd h (Nat.lt_irrefl 1)⟩
      · cases hdepth
        exact ⟨rfl, rfl, fun _ => rfl⟩
    · cases hdepth
      exact ⟨rfl, rfl, fun _ => rfl⟩

theorem enter_tooDeep (h : Follows history n) (hd : n.indentation.level + 1 < d) :
    n.enter line a = (.error (.rejected .indentation), n) := by
  obtain ⟨hlevel, _, hkept⟩ := depth_spec hdepth
  have hnonneg := h.level_nonneg
  obtain rfl : t = n.indentation := hkept (by omega)
  have hclosings : n.indentation.closings d = .error (.rejected .indentation) := by
    have hrise : ¬ ((d : Int) - n.indentation.level < 1) := by omega
    have hdeep : (d : Int) - n.indentation.level > 1 := by omega
    simp [closings, hrise, if_pos hdeep]
  simp [enter, hdepth, hclosings]

theorem enter_first (h : Follows [] n) (hd : (d : Int) ≤ n.indentation.level + 1) :
    n.enter line a = (.ok (), ⟨t.place d, [a]⟩) := by
  obtain ⟨hlevel, hfresh, _⟩ := depth_spec hdepth
  have hclosings : t.closings d = .ok 0 := by
    have hnew : t.fresh := hfresh.trans h.fresh
    have hflat : ¬ ((d : Int) - t.level > 1) := by omega
    simp [closings, hnew, if_neg hflat]
  simp only [enter, hdepth, hclosings, Nat.zero_le, if_true, drop_zero, h.entries]
  rfl

theorem closings_later (h : Follows (x :: earlier) n)
    (hd : (d : Int) ≤ n.indentation.level + 1) : t.closings d = .ok (x.1 + 1 - d) := by
  obtain ⟨hlevel, hfresh, _⟩ := depth_spec hdepth
  have hx : t.level = x.1 := hlevel.trans h.level
  have hused : t.fresh = false := hfresh.trans h.fresh
  rw [hlevel.symm, hx] at hd
  by_cases hdeeper : d = x.1 + 1
  · have hrise : ¬ ((d : Int) - t.level < 1) := by omega
    have hflat : ¬ ((d : Int) - t.level > 1) := by omega
    simp only [closings, hrise, decide_false, Bool.false_and, Bool.false_eq_true, if_false, if_neg hflat]
    congr 1
    omega
  · have hrise : (d : Int) - t.level < 1 := by omega
    simp only [closings, hrise, decide_true, hused, Bool.not_false, Bool.and_self, if_true]
    congr 1
    omega

theorem enter_tooShallow (h : Follows (x :: earlier) n)
    (hbase : base ∈ (x :: earlier).getLast?) (hd : d < base.1) :
    n.enter line a = (.error .outOfRange, ⟨t, []⟩) := by
  have hbx : base.1 ≤ x.1 := h.lowest base hbase x mem_cons_self
  have hx : n.indentation.level = x.1 := h.level
  have hmore : ¬ x.1 + 1 - d ≤ n.entries.length := by
    rw [h.length_entries hbase]
    omega
  simp only [enter, hdepth, h.closings_later hdepth (by omega), if_neg hmore]

theorem enter_later (h : Follows (x :: earlier) n)
    (hd : (d : Int) ≤ n.indentation.level + 1) (hbase : base ∈ (x :: earlier).getLast?) (hlow : base.1 ≤ d) :
    n.enter line a = (.ok (), ⟨t.place d, a :: (enclosing d (x :: earlier)).map Prod.snd⟩) := by
  have hx : n.indentation.level = x.1 := h.level
  have hbx : base.1 ≤ x.1 := h.lowest base hbase x mem_cons_self
  have hfew : x.1 + 1 - d ≤ n.entries.length := by
    rw [h.length_entries hbase]
    omega
  simp only [enter, hdepth, h.closings_later hdepth hd, if_pos hfew]
  rw [h.entries, enclosing_eq_drop_rootPath h.climbs (by omega), map_drop]

end

variable (h : Follows history n)
include h

theorem base_le_level (hbase : base ∈ history.getLast?) : (base.1 : Int) ≤ n.indentation.level := by
  cases history with
  | nil => cases hbase
  | cons x earlier =>
    have hbx := h.lowest base hbase x mem_cons_self
    have hx : n.indentation.level = x.1 := h.level
    omega

theorem length_entries_eq_level
    (hbase : base ∈ history.getLast?) : (n.entries.length : Int) = n.indentation.level + 1 - base.1 := by
  have hbound := h.base_le_level hbase
  cases history with
  | nil => cases hbase
  | cons x earlier =>
    have hlevel : n.indentation.level = x.1 := h.level
    rw [h.length_entries hbase, hlevel]
    omega

theorem enter_cases (hdepth : n.indentation.depth line = .ok (d, t)) (a : α) :
    (n.indentation.level + 1 < d ∧ n.enter line a = (.error (.rejected .indentation), n)) ∨
    (∃ base ∈ history.getLast?, d < base.1 ∧ n.enter line a = (.error .outOfRange, ⟨t, []⟩)) ∨
    ((d : Int) ≤ n.indentation.level + 1 ∧ (∀ base ∈ history.getLast?, base.1 ≤ d) ∧
      n.enter line a = (.ok (), ⟨t.place d, a :: (enclosing d history).map Prod.snd⟩)) := by
  by_cases hdeep : n.indentation.level + 1 < d
  · exact .inl ⟨hdeep, h.enter_tooDeep hdepth hdeep⟩
  have hflat : (d : Int) ≤ n.indentation.level + 1 := by omega
  cases history with
  | nil =>
    refine .inr (.inr ⟨hflat, ?_, h.enter_first hdepth hflat⟩)
    intro base hbase
    cases hbase
  | cons x earlier =>
    obtain ⟨base, hbase⟩ : ∃ base, base ∈ (x :: earlier).getLast? :=
      ⟨_, getLast?_eq_some_getLast (cons_ne_nil x earlier)⟩
    by_cases hlow : base.1 ≤ d
    · refine .inr (.inr ⟨hflat, ?_, h.enter_later hdepth hflat hbase hlow⟩)
      intro base' hbase'
      rwa [Option.mem_unique hbase' hbase]
    · have hbelow : d < base.1 := by omega
      exact .inr (.inl ⟨base, hbase, hbelow, h.enter_tooShallow hdepth hbase hbelow⟩)

theorem enter {n' : Nesting α} (henter : n.enter line a = (.ok (), n')) :
    ∃ d t, n.indentation.depth line = .ok (d, t) ∧ n'.indentation = t.place d ∧
      Follows ((d, a) :: history) n' := by
  rcases hdepth : n.indentation.depth line with f | ⟨d, t⟩
  · simp only [Nesting.enter, hdepth, Prod.mk.injEq, reduceCtorEq, false_and] at henter
  refine ⟨d, t, rfl, ?_⟩
  rcases h.enter_cases hdepth a with ⟨_, heq⟩ | ⟨_, _, _, heq⟩ | ⟨hflat, hlow, heq⟩ <;>
    rw [heq] at henter <;> cases henter
  refine ⟨rfl, rfl, rfl, rfl, ?_, ?_⟩
  · apply isChain_cons.mpr ⟨_, h.climbs⟩
    intro x hx
    obtain ⟨earlier, rfl⟩ := head?_eq_some_iff.mp hx
    have hlevel : n.indentation.level = x.1 := h.level
    change d ≤ x.1 + 1
    omega
  · intro base hbase y hy
    cases history with
    | nil =>
      obtain rfl : (d, a) = base := Option.some.inj hbase
      rw [mem_singleton.mp hy]
    | cons x earlier =>
      rw [getLast?_cons_cons] at hbase
      rcases mem_cons.mp hy with rfl | hy
      · exact hlow base hbase
      · exact h.lowest base hbase y hy

theorem enterAll {lines : List (Text × α)} {n' : Nesting α}
    (hrun : n.enterAll lines = .ok n') : (measure n.indentation lines).map Prod.snd = lines.map Prod.snd ∧
      Follows ((measure n.indentation lines).reverse ++ history) n' := by
  induction lines generalizing n history with
  | nil =>
    cases hrun
    exact ⟨rfl, h⟩
  | cons x rest ih =>
    obtain ⟨line, a⟩ := x
    rw [Nesting.enterAll] at hrun
    split at hrun
    · cases hrun
    · rename_i n₁ henter
      obtain ⟨d, t, hdepth, hplace, hfollows⟩ := h.enter henter
      obtain ⟨hmap, hrest⟩ := ih hfollows hrun
      rw [hplace] at hmap hrest
      rw [measure, hdepth, map_cons, map_cons, hmap, reverse_cons, append_assoc]
      exact ⟨rfl, hrest⟩

end Follows

theorem exists_depth (t : Indentation) {line : Text} (h : line ≠ []) : ∃ d t', t.depth line = .ok (d, t') := by
  obtain ⟨c, s, rfl⟩ := exists_cons_of_ne_nil h
  rw [depth]
  split
  · split <;> exact ⟨_, _, rfl⟩
  · exact ⟨_, _, rfl⟩

/-- Lines are entered into a new nesting, each as its own entry. As long as all can be entered, the
entries are the path from the latest line to the root, one for each level from the first line on. The
next line is then rejected exactly if it is more than one level deeper than the latest, and that
changes nothing; it finds too little to close exactly if it is less deep than the first; and otherwise
it is entered. -/
theorem enterAll_eq_rootPath (lines : List Text) {n : Nesting Text}
    (hrun : enterAll {} (lines.map fun line => (line, line)) = .ok n) {line : Text} (hline : line ≠ []) :
    let history := (measure {} (lines.map fun line => (line, line))).reverse
    history.map Prod.snd = lines.reverse ∧
    n.entries = (rootPath history).map Prod.snd ∧
    (∀ base ∈ history.getLast?, (n.entries.length : Int) = n.indentation.level + 1 - base.1) ∧
    ∃ d t, n.indentation.depth line = .ok (d, t) ∧
      ((n.enter line line).1 = .error (.rejected .indentation) ↔ n.indentation.level + 1 < d) ∧
      ((n.enter line line).1 = .error (.rejected .indentation) → (n.enter line line).2 = n) ∧
      ((n.enter line line).1 = .error .outOfRange ↔ ∃ base ∈ history.getLast?, d < base.1) ∧
      ((n.enter line line).1 = .ok () ↔
        (d : Int) ≤ n.indentation.level + 1 ∧ ∀ base ∈ history.getLast?, base.1 ≤ d) := by
  intro history
  obtain ⟨hmap, h⟩ := Follows.start.enterAll hrun
  rw [List.append_nil] at h
  have hlines : history.map Prod.snd = lines.reverse := by
    rw [List.map_reverse, hmap, List.map_map]
    exact congrArg List.reverse (List.map_id lines)
  obtain ⟨d, t, hdepth⟩ := exists_depth n.indentation hline
  refine ⟨hlines, h.entries, fun base => h.length_entries_eq_level, d, t, hdepth, ?_⟩
  rcases h.enter_cases hdepth line with ⟨hdeep, heq⟩ | ⟨base, hbase, hlow, heq⟩ | ⟨hflat, hlow, heq⟩
  · rw [heq]
    simp only [hdeep, implies_true, reduceCtorEq, false_iff, true_and, Except.error.injEq]
    constructor
    · rintro ⟨base, hbase, hlow⟩
      have hbound := h.base_le_level hbase
      omega
    · rintro ⟨hflat, _⟩
      omega
  · have hbound := h.base_le_level hbase
    rw [heq]
    simp only [reduceCtorEq, false_iff, true_iff, false_implies, true_and, Except.error.injEq]
    refine ⟨?_, ⟨base, hbase, hlow⟩, ?_⟩
    · omega
    · rintro ⟨_, hall⟩
      exact absurd (hall base hbase) (by omega)
  · rw [heq]
    simp only [reduceCtorEq, false_iff, true_iff, false_implies, true_and]
    refine ⟨?_, ?_, hflat, hlow⟩
    · omega
    · rintro ⟨base, hbase, hbelow⟩
      exact absurd (hlow base hbase) (by omega)

/-- After a line that falls back, the path leads past the lines it has left, and a line two levels
deeper is rejected. -/
theorem enterAll_eq_rootPath_fallen :
    ∃ n : Nesting Text,
      enterAll {} (["a".toList, "\tb".toList, "\t\tc".toList, "\td".toList].map fun line => (line, line)) = .ok n ∧
      n.entries = ["\td".toList, "a".toList] ∧
      n.enter "\t\t\te".toList "\t\t\te".toList = (.error (.rejected .indentation), n) := by
  refine ⟨⟨⟨1, some ['\t'], false⟩, ["\td".toList, "a".toList]⟩, rfl, ?_⟩
  obtain ⟨_, hentries, _, d, t, hdepth, hdeep, hkept, _⟩ :=
    enterAll_eq_rootPath ["a".toList, "\tb".toList, "\t\tc".toList, "\td".toList]
      (n := ⟨⟨1, some ['\t'], false⟩, ["\td".toList, "a".toList]⟩) rfl
      (show "\t\t\te".toList ≠ [] by decide)
  obtain rfl : d = 3 := (congrArg Prod.fst (Except.ok.inj hdepth)).symm
  have hrejected := hdeep.mpr (by decide)
  exact ⟨hentries, Prod.ext hrejected (hkept hrejected)⟩

end Nesting
end OutlineMarkup
