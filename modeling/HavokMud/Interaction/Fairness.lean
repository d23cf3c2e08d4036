import Mathlib.Order.WellFounded

/-!
# Fair runs

An infinite run is fair to an event that is taken sometime whenever it stays possible.  A measure
that such events bring down, and that no other event brings up, leads to a goal.
-/

namespace HavokMud.Interaction

section Fairness

variable {σ ε : Type}

/-- An infinite run that is fair to the events of `must`. -/
structure FairRun (step : σ → ε → Option σ) (must : Set ε) (states : ℕ → σ) (events : ℕ → ε) :
    Prop where
  runs : ∀ n, step (states n) (events n) = some (states (n + 1))
  fair : ∀ e ∈ must, ∀ n, (∀ m ≥ n, step (states m) e ≠ none) → ∃ m ≥ n, events m = e

variable {step : σ → ε → Option σ} {must : Set ε} {states : ℕ → σ} {events : ℕ → ε}

/-- Until the goal is reached, `next` is possible and brings the measure down, and the other events
bring it down or leave it and `next` as they are. -/
theorem FairRun.eventually (h : FairRun step must states events) {α : Type} [Preorder α]
    [WellFoundedLT α] {inv goal : σ → Prop} {admits : ε → Prop} {measure : σ → α} {next : σ → ε}
    (hadmits : ∀ n, admits (events n))
    (hinv : ∀ s e s', inv s → admits e → step s e = some s' → inv s')
    (hnext : ∀ s, inv s → ¬ goal s → next s ∈ must ∧ step s (next s) ≠ none)
    (hstep : ∀ s e s', inv s → ¬ goal s → admits e → step s e = some s' →
      goal s' ∨ measure s' < measure s ∨
        (e ≠ next s ∧ measure s' = measure s ∧ next s' = next s)) {n : ℕ} (hn : inv (states n)) :
    ∃ m ≥ n, goal (states m) := by
  have hstates : ∀ m ≥ n, inv (states m) := by
    intro m hm
    induction m, hm using Nat.le_induction with
    | base => exact hn
    | succ m _ ih => exact hinv _ _ _ ih (hadmits m) (h.runs m)
  clear hn
  obtain ⟨x, hx⟩ : ∃ x, measure (states n) = x := ⟨_, rfl⟩
  induction x using WellFoundedLT.induction generalizing n with
  | ind x ih =>
      by_contra hnever
      push Not at hnever
      have hstays : ∀ m ≥ n, events m ≠ next (states m) ∧
          measure (states (m + 1)) = measure (states m) ∧
          next (states (m + 1)) = next (states m) ∨
            measure (states (m + 1)) < measure (states m) := by
        intro m hm
        rcases hstep _ _ _ (hstates m hm) (hnever m hm) (hadmits m) (h.runs m) with
          hgoal | hlt | hsame
        · exact absurd hgoal (hnever (m + 1) (by omega))
        · exact .inr hlt
        · exact .inl hsame
      -- a smaller measure would lead to the goal by induction
      have hsame : ∀ m ≥ n, measure (states m) = x ∧ next (states m) = next (states n) := by
        intro m hm
        induction m, hm using Nat.le_induction with
        | base => exact ⟨hx, rfl⟩
        | succ m hm ihm =>
            rcases hstays m hm with ⟨-, hmeasure, hnext'⟩ | hlt
            · exact ⟨hmeasure.trans ihm.1, hnext'.trans ihm.2⟩
            · rw [ihm.1] at hlt
              obtain ⟨k, hk, hgoal⟩ := ih _ hlt (fun k hk ↦ hstates k (by omega)) rfl
              exact absurd hgoal (hnever k (by omega))
      have hmust := (hnext _ (hstates n le_rfl) (hnever n le_rfl)).1
      obtain ⟨m, hm, hevent⟩ := h.fair _ hmust n (by
        intro m hm
        rw [← (hsame m hm).2]
        exact (hnext _ (hstates m hm) (hnever m hm)).2)
      rcases hstays m hm with ⟨hne, -⟩ | hlt
      · exact hne (hevent.trans (hsame m hm).2.symm)
      · rw [(hsame m hm).1, (hsame (m + 1) (by omega)).1] at hlt
        exact lt_irrefl _ hlt

end Fairness

end HavokMud.Interaction
