import Mathlib.Data.Nat.Basic

/-!
# Searching by halves

A loop narrows an interval whose ends both belong to it.  It looks at the middle, and in the last
step at the upper end, which the middle never reaches.
-/

namespace HavokMud.Sequence

section Bisection

variable (compare : ℕ → ℤ)

/-- The search between `low` and `high`; the comparison is negative where the wanted entry is
further down.  It runs for so many turns, and -1 is its answer if nothing is found. -/
def bisect : ℕ → ℕ → ℕ → Option ℤ
  | 0, _, _ => none
  | turns + 1, low, high =>
      let i := (low + high) / 2
      if compare i = 0 then some i
      else if high = low + 1 then if compare high = 0 then some high else some (-1)
      else if high ≤ low then some (-1)
      else if compare i < 0 then bisect turns low i
      else bisect turns i high

/-- Behind an entry that is not in front of the wanted one, all entries are too far. -/
def Falling (low high : ℕ) : Prop :=
  ∀ i j, low ≤ i → i < j → j ≤ high → compare i ≤ 0 → compare j < 0

variable {compare} {low high : ℕ}

theorem Falling.mono {low' high' : ℕ} (h : Falling compare low high) (hlow : low ≤ low')
    (hhigh : high' ≤ high) : Falling compare low' high' :=
  fun i j hi hij hj ↦ h i j (Nat.le_trans hlow hi) hij (Nat.le_trans hj hhigh)

/-- It is enough to look at neighbours. -/
theorem falling_of_succ
    (h : ∀ i, low ≤ i → i < high → compare i ≤ 0 → compare (i + 1) < 0) :
    Falling compare low high := by
  intro i j hi hij hj hcompare
  induction j, hij using Nat.le_induction with
  | base => exact h i hi hj hcompare
  | succ j hij ih =>
      have hj' := ih (Nat.le_of_succ_le hj)
      exact h j (by omega) hj (Int.le_of_lt hj')

/-- What the search may answer. -/
def Answers (compare : ℕ → ℤ) (low high : ℕ) (answer : ℤ) : Prop :=
  (∃ i : ℕ, answer = i ∧ low ≤ i ∧ i ≤ high ∧ compare i = 0) ∨
    (answer = -1 ∧ ∀ i, low ≤ i → i ≤ high → compare i ≠ 0)

/-- Where nothing was left out, the answer of a part is that of the whole. -/
theorem Answers.widen {low' high' : ℕ} {answer : ℤ} (h : Answers compare low' high' answer)
    (hlow : low ≤ low') (hhigh : high' ≤ high)
    (hout : ∀ i, low ≤ i → i ≤ high → compare i = 0 → low' ≤ i ∧ i ≤ high') :
    Answers compare low high answer := by
  rcases h with ⟨i, hanswer, hi, hi', hzero⟩ | ⟨hanswer, hne⟩
  · exact .inl ⟨i, hanswer, Nat.le_trans hlow hi, Nat.le_trans hi' hhigh, hzero⟩
  · refine .inr ⟨hanswer, ?_⟩
    intro i hi hi' hzero
    obtain ⟨hin, hin'⟩ := hout i hi hi' hzero
    exact hne i hin hin' hzero

/-- Of two entries only the upper one is left. -/
theorem answers_two (htwo : high = low + 1) (hlow : compare low ≠ 0) :
    ∃ answer, (if compare high = 0 then some (high : ℤ) else some (-1)) = some answer ∧
      Answers compare low high answer := by
  by_cases hhigh : compare high = 0
  · rw [if_pos hhigh]
    exact ⟨_, rfl, .inl ⟨_, rfl, by omega, Nat.le_refl _, hhigh⟩⟩
  · rw [if_neg hhigh]
    refine ⟨_, rfl, .inr ⟨rfl, ?_⟩⟩
    intro i hi hi'
    rcases (show i = low ∨ i = high by omega) with rfl | rfl
    · exact hlow
    · exact hhigh

/-- In an interval in order the wanted entry is found if it is there. -/
theorem bisect_answers (turns : ℕ) (hle : low ≤ high) (hturns : high < low + turns)
    (hfalling : Falling compare low high) :
    ∃ answer, bisect compare turns low high = some answer ∧ Answers compare low high answer := by
  induction turns generalizing low high with
  | zero => omega
  | succ turns ih =>
      rw [bisect]
      by_cases hzero : compare ((low + high) / 2) = 0
      · rw [if_pos hzero]
        exact ⟨_, rfl, .inl ⟨_, rfl, by omega, by omega, hzero⟩⟩
      rw [if_neg hzero]
      by_cases htwo : high = low + 1
      · rw [if_pos htwo]
        rw [show (low + high) / 2 = low by omega] at hzero
        exact answers_two htwo hzero
      rw [if_neg htwo]
      by_cases hone : high ≤ low
      · rw [if_pos hone]
        refine ⟨_, rfl, .inr ⟨rfl, ?_⟩⟩
        intro i hi hi'
        rwa [show i = (low + high) / 2 by omega]
      rw [if_neg hone]
      by_cases hneg : compare ((low + high) / 2) < 0
      · obtain ⟨answer, hsearch, hfound⟩ := ih (show low ≤ (low + high) / 2 by omega) (by omega)
          (hfalling.mono (Nat.le_refl _) (by omega))
        rw [if_pos hneg]
        refine ⟨answer, hsearch, hfound.widen (Nat.le_refl _) (by omega) ?_⟩
        intro i hi hi' hi0
        by_contra hout
        have := hfalling ((low + high) / 2) i (by omega) (by omega) hi' (Int.le_of_lt hneg)
        omega
      · obtain ⟨answer, hsearch, hfound⟩ := ih (show (low + high) / 2 ≤ high by omega) (by omega)
          (hfalling.mono (by omega) (Nat.le_refl _))
        rw [if_neg hneg]
        refine ⟨answer, hsearch, hfound.widen (by omega) (Nat.le_refl _) ?_⟩
        intro i hi hi' hi0
        by_contra hout
        have := hfalling i ((low + high) / 2) hi (by omega) (by omega) (Int.le_of_eq hi0)
        exact hneg this

end Bisection

end HavokMud.Sequence
