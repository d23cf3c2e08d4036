import Mathlib.Data.Option.Basic

/-!
# Simulation of commands

A command takes a state to a state and an answer, or cannot be executed.  If two machines agree on
every single command, they agree on every sequence of commands.
-/

namespace HavokMud.Interaction

variable {ι ο σ τ : Type} {step : σ → ι → Option (σ × ο)} {step' : τ → ι → Option (τ × ο)}

/-- One command after the other, with all the answers. -/
def runAll (step : σ → ι → Option (σ × ο)) : σ → List ι → Option (σ × List ο)
  | s, [] => some (s, [])
  | s, command :: rest =>
      (step s command).bind fun next ↦
        (runAll step next.1 rest).map fun last ↦ (last.1, next.2 :: last.2)

/-- Both machines stop, or they go on with the same answer. -/
abbrev Matches (R : σ → τ → Prop) {α : Type} : Option (σ × α) → Option (τ × α) → Prop :=
  Option.Rel fun x y ↦ R x.1 y.1 ∧ x.2 = y.2

theorem Matches.mono {R R' : σ → τ → Prop} {α : Type} {x : Option (σ × α)} {y : Option (τ × α)}
    (h : Matches R x y) (hR : ∀ s t, R s t → R' s t) : Matches R' x y := by
  cases h with
  | none => exact .none
  | some hxy => exact .some ⟨hR _ _ hxy.1, hxy.2⟩

end HavokMud.Interaction
