import OutlineMarkup.Fault

/-!
# Actions

Computations that may fail and keep the state they have reached, also when they fail.
-/

namespace OutlineMarkup

abbrev Action (σ : Type) := ExceptT Fault (StateM σ)

namespace Action
variable {σ α : Type}

/-- Result and state of an action that starts from a given state. -/
def runFrom (x : Action σ α) (s : σ) : Except Fault α × σ := x.run.run s

def times (x : Action σ Unit) : Nat → Action σ Unit
  | 0 => pure ()
  | n + 1 => do
    x
    times x n

end Action
end OutlineMarkup
