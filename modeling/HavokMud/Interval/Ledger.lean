import HavokMud.Interval.Tiling
import Mathlib.Logic.Function.Basic

/-!
# Who has which addresses

A ledger records which range of addresses each owner has.  The ranges lie in regions that were
obtained from outside and no two owners share an address.  Ranges are passed on from one owner to
another, cut in two, or come with a new region.
-/

namespace HavokMud.Interval

variable {ω : Type*}

/-- The ranges of the owners are not empty, lie in the regions and do not meet. -/
structure Ledger (regions : List (ℤ × ℤ)) (place : ω → Option (ℤ × ℤ)) : Prop where
  pos : ∀ o x, place o = some x → 0 < x.2
  inside : ∀ o x, place o = some x → ∃ r ∈ regions, r.1 ≤ x.1 ∧ x.1 + x.2 ≤ r.1 + r.2
  apart : ∀ o o' x y, o ≠ o' → place o = some x → place o' = some y → Apart x.1 x.2 y.1 y.2

namespace Ledger

variable {regions : List (ℤ × ℤ)} {place : ω → Option (ℤ × ℤ)}

theorem empty : Ledger [] fun _ : ω ↦ none :=
  ⟨by simp, by simp, by simp⟩

/-- Owners whose ranges start at the same address are the same. -/
theorem eq_of_start_eq (h : Ledger regions place) {o o' : ω} {a n m : ℤ}
    (ho : place o = some (a, n)) (ho' : place o' = some (a, m)) : o = o' := by
  by_contra hne
  have hpos := h.pos o _ ho
  have hpos' := h.pos o' _ ho'
  rcases h.apart o o' _ _ hne ho ho' with hap | hap <;> simp only at hap hpos hpos' <;> omega

variable [DecidableEq ω]

/-- An owner gets a new region. -/
theorem grant (h : Ledger regions place) (o : ω) {a n : ℤ} (hn : 0 < n)
    (hfresh : ∀ r ∈ regions, Apart a n r.1 r.2) :
    Ledger ((a, n) :: regions) (Function.update place o (some (a, n))) where
  pos p x hp := by
    rw [Function.update_apply] at hp
    split_ifs at hp
    · obtain rfl := Option.some.inj hp
      exact hn
    · exact h.pos p x hp
  inside p x hp := by
    rw [Function.update_apply] at hp
    split_ifs at hp
    · obtain rfl := Option.some.inj hp
      exact ⟨_, List.mem_cons_self, le_rfl, le_rfl⟩
    · obtain ⟨r, hr, hin⟩ := h.inside p x hp
      exact ⟨r, List.mem_cons_of_mem _ hr, hin⟩
  apart p q x y hne hp hq := by
    have hnew : ∀ p x, place p = some x → Apart a n x.1 x.2 := by
      intro p x hp
      obtain ⟨r, hr, hlo, hhi⟩ := h.inside p x hp
      exact (hfresh r hr).mono le_rfl le_rfl hlo hhi
    rw [Function.update_apply] at hp hq
    split_ifs at hp hq with hpo hqo hqo
    · exact absurd (hpo.trans hqo.symm) hne
    · obtain rfl := Option.some.inj hp
      exact hnew q y hq
    · obtain rfl := Option.some.inj hq
      exact (hnew p x hp).symm
    · exact h.apart p q x y hne hp hq

/-- An owner keeps the first `n` addresses of its range and passes the rest on, to an owner that is
to have nothing else. -/
theorem cut (h : Ledger regions place) {o o' : ω} {a m n : ℤ}
    (ho : place o = some (a, m)) (hn : 0 < n) (hlt : n < m) :
    Ledger regions
      (Function.update (Function.update place o' (some (a + n, m - n))) o (some (a, n))) := by
  obtain ⟨r, hr, hlo, hhi⟩ := h.inside o _ ho
  simp only at hlo hhi
  have hother : ∀ q y, q ≠ o → place q = some y → Apart a m y.1 y.2 :=
    fun q y hq hy ↦ h.apart o q _ _ hq.symm ho hy
  refine ⟨fun p x hp ↦ ?_, fun p x hp ↦ ?_, fun p q x y hpq hp hq ↦ ?_⟩
  · rw [Function.update_apply, Function.update_apply] at hp
    split_ifs at hp
    · obtain rfl := Option.some.inj hp
      exact hn
    · obtain rfl := Option.some.inj hp
      simp only
      omega
    · exact h.pos p x hp
  · rw [Function.update_apply, Function.update_apply] at hp
    split_ifs at hp
    · obtain rfl := Option.some.inj hp
      exact ⟨r, hr, hlo, by simp only; omega⟩
    · obtain rfl := Option.some.inj hp
      exact ⟨r, hr, by simp only; omega, by simp only; omega⟩
    · exact h.inside p x hp
  · rw [Function.update_apply, Function.update_apply] at hp hq
    split_ifs at hp hq with hpo hqo hqo' hpo' hqo hqo' hqo hqo'
    · exact absurd (hpo.trans hqo.symm) hpq
    · obtain rfl := Option.some.inj hp
      obtain rfl := Option.some.inj hq
      exact Or.inl le_rfl
    · obtain rfl := Option.some.inj hp
      exact (hother q y hqo hq).mono le_rfl (by simp only; omega) le_rfl le_rfl
    · obtain rfl := Option.some.inj hp
      obtain rfl := Option.some.inj hq
      exact Or.inr le_rfl
    · exact absurd (hpo'.trans hqo'.symm) hpq
    · obtain rfl := Option.some.inj hp
      exact (hother q y hqo hq).mono (by simp only; omega) (by simp only; omega) le_rfl le_rfl
    · obtain rfl := Option.some.inj hq
      exact (hother p x hpo hp).symm.mono le_rfl le_rfl le_rfl (by simp only; omega)
    · obtain rfl := Option.some.inj hq
      exact (hother p x hpo hp).symm.mono le_rfl le_rfl (by simp only; omega) (by simp only; omega)
    · exact h.apart p q x y hpq hp hq

/-- An owner passes its whole range on, to an owner that is to have nothing else. -/
theorem pass (h : Ledger regions place) (o' : ω) {o : ω} {x : ℤ × ℤ} (ho : place o = some x) :
    Ledger regions (Function.update (Function.update place o none) o' (some x)) where
  pos p y hp := by
    rw [Function.update_apply, Function.update_apply] at hp
    split_ifs at hp
    · obtain rfl := Option.some.inj hp
      exact h.pos o x ho
    · exact h.pos p y hp
  inside p y hp := by
    rw [Function.update_apply, Function.update_apply] at hp
    split_ifs at hp
    · obtain rfl := Option.some.inj hp
      exact h.inside o x ho
    · exact h.inside p y hp
  apart p q y z hpq hp hq := by
    rw [Function.update_apply, Function.update_apply] at hp hq
    split_ifs at hp hq with hpo hqo hqo' hpo' hqo hqo'
    · exact absurd (hpo.trans hqo.symm) hpq
    · obtain rfl := Option.some.inj hp
      exact h.apart o q _ _ (Ne.symm hqo') ho hq
    · obtain rfl := Option.some.inj hq
      exact h.apart p o _ _ hpo' hp ho
    · exact h.apart p q y z hpq hp hq

end Ledger

end HavokMud.Interval
