import OutlineMarkup.Engine
import OutlineMarkup.Pattern.Reader
import OutlineMarkup.Shorthand

/-!
# Mild faults

The readers of attributes, definitions, shorthands and patterns fail by mild faults only: none of
them says that lines nest too deeply or that a file is missing.
-/

namespace OutlineMarkup

/-- Faults other than those of lines that nest too deeply and of missing files. -/
def Fault.isMild : Fault → Bool
  | .tooDeep | .missingFile => false
  | _ => true

def FailsMildly {α : Type} (e : Except Fault α) : Prop := ∀ f, e = .error f → f.isMild = true

namespace FailsMildly
variable {α β : Type}

theorem ok (a : α) : FailsMildly (.ok a : Except Fault α) := nofun

theorem error {f : Fault} (h : f.isMild) : FailsMildly (.error f : Except Fault α) := by
  intro g hg
  cases hg
  exact h

theorem bind {e : Except Fault α} {k : α → Except Fault β} (he : FailsMildly e)
    (hk : ∀ a, FailsMildly (k a)) : FailsMildly (e >>= k) := by
  cases e with
  | error f => exact error (he f rfl)
  | ok a => exact hk a

theorem map {e : Except Fault α} (he : FailsMildly e) (g : α → β) :
    FailsMildly (e >>= fun a => .ok (g a)) := he.bind fun a => ok (g a)

theorem mapM {k : α → Except Fault β} (hk : ∀ a, FailsMildly (k a)) (as : List α) :
    FailsMildly (as.mapM k) := by
  induction as with
  | nil => exact ok _
  | cons a as ih =>
    rw [List.mapM_cons]
    exact (hk a).bind fun b => ih.bind fun bs => ok _

theorem forM {k : α → Except Fault PUnit} (hk : ∀ a, FailsMildly (k a)) (as : List α) :
    FailsMildly (as.forM k) := by
  induction as with
  | nil => exact ok _
  | cons a as ih => exact (hk a).bind fun _ => ih

end FailsMildly

namespace Attributes

theorem expand_failsMildly (source : Text) : FailsMildly (expand source) := by
  unfold expand
  split
  · exact .error rfl
  · dsimp only
    split
    · exact .ok _
    · split
      · split <;> exact .ok _
      · exact .ok _

theorem Open.after_failsMildly (o : Open) (piece : Text) : FailsMildly (o.after piece) := by
  unfold Open.after
  split
  · exact .ok _
  · split
    · exact .ok _
    · exact .error rfl

theorem collect_failsMildly (o : Open) (buffer : Text) (pieces : List Text) :
    FailsMildly (collect o buffer pieces) := by
  induction pieces generalizing o buffer with
  | nil => exact .ok _
  | cons raw rest ih => exact (o.after_failsMildly raw.trim).bind fun o => (ih o _).map _

theorem read_failsMildly (tag : Text) : FailsMildly (read tag) := by
  unfold read
  split
  · exact .error rfl
  · exact .ok _
  · exact (collect_failsMildly _ _ _).bind fun as =>
      .mapM (fun a => (expand_failsMildly a).map unquoteName) as

end Attributes

theorem Definition.read_failsMildly (source : Text) : FailsMildly (Definition.read source) := by
  unfold Definition.read
  dsimp only
  split
  · exact (Attributes.read_failsMildly _).map _
  · exact .ok _

theorem EngineDeclaration.read_failsMildly (line : Text) : FailsMildly (EngineDeclaration.read line) := by
  unfold EngineDeclaration.read
  split
  · exact .error rfl
  · refine (Definition.read_failsMildly _).bind fun source => ?_
    split
    · exact .ok _
    · exact .error rfl

theorem Pattern.read_failsMildly (s : Text) : FailsMildly (read s) := by
  unfold read
  split
  · split
    · exact .ok _
    · exact .error rfl
  · exact .error rfl

end OutlineMarkup
