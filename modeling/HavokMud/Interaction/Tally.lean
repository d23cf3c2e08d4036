import Mathlib.Algebra.BigOperators.Fin
import Mathlib.Algebra.Order.BigOperators.Group.Finset

/-!
# Tallies

How many members of a finite family meet a condition, and how the number changes with one member.
-/

namespace HavokMud.Interaction

section Tally

variable {ι β : Type} [Fintype ι] {p : β → Bool} {f : ι → β} {t : ι}

/-- The number of members that meet a condition. -/
def tally (p : β → Bool) (f : ι → β) : ℕ :=
  ∑ t, (p (f t)).toNat

theorem tally_pos : 0 < tally p f ↔ ∃ t, p (f t) = true := by
  unfold tally
  rw [Finset.sum_pos_iff]
  simp only [Finset.mem_univ, true_and]
  constructor
  · rintro ⟨t, ht⟩
    refine ⟨t, ?_⟩
    by_contra hne
    rw [Bool.eq_false_iff.mpr hne] at ht
    cases ht
  · rintro ⟨t, ht⟩
    refine ⟨t, ?_⟩
    rw [ht]
    exact Nat.one_pos

/-- One member changes. -/
theorem tally_update [DecidableEq ι] (x : β) :
    tally p (Function.update f t x) + (p (f t)).toNat = tally p f + (p x).toNat := by
  have hsplit : ∀ g : ι → β, tally p g =
      (p (g t)).toNat + ∑ u ∈ Finset.univ.erase t, (p (g u)).toNat :=
    fun g ↦ (Finset.add_sum_erase _ _ (Finset.mem_univ t)).symm
  have hrest : ∑ u ∈ Finset.univ.erase t, (p (Function.update f t x u)).toNat =
      ∑ u ∈ Finset.univ.erase t, (p (f u)).toNat := by
    apply Finset.sum_congr rfl
    intro u hu
    rw [Function.update_of_ne (Finset.ne_of_mem_erase hu)]
  rw [hsplit f, hsplit (Function.update f t x), hrest, Function.update_self]
  omega

end Tally

end HavokMud.Interaction
