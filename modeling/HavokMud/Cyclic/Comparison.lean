import Mathlib.Data.Int.LeastGreatest
import Mathlib.Data.Int.ModEq
import Mathlib.Tactic.Ring

/-!
# Comparison by subtraction

Numbers of a fixed width are compared by the sign of their difference, which wraps around.  On the
circle of the numbers this says which of two is less than half a turn ahead.  It is an order exactly
for numbers that all lie in one half of the circle.
-/

namespace HavokMud.Cyclic

variable {κ : Type*} {half : ℕ} {keys : Set ℤ}

/-- The signs of a comparison are those of a strict total order of the keys. -/
structure Orders (compare : κ → κ → ℤ) (keys : Set κ) : Prop where
  zero : ∀ l ∈ keys, ∀ r ∈ keys, compare l r = 0 ↔ l = r
  antisymm : ∀ l ∈ keys, ∀ r ∈ keys, compare l r < 0 ↔ 0 < compare r l
  trans : ∀ l ∈ keys, ∀ m ∈ keys, ∀ r ∈ keys, compare l m < 0 → compare m r < 0 → compare l r < 0

/-- Only the signs matter. -/
theorem Orders.congr {compare compare' : κ → κ → ℤ} {keys : Set κ} (h : Orders compare keys)
    (hneg : ∀ l r, compare' l r < 0 ↔ compare l r < 0)
    (hpos : ∀ l r, 0 < compare' l r ↔ 0 < compare l r) : Orders compare' keys where
  zero l hl r hr := by
    have hzero := h.zero l hl r hr
    have hn := hneg l r
    have hp := hpos l r
    rw [← hzero]
    omega
  antisymm l hl r hr := by
    rw [hneg, hpos]
    exact h.antisymm l hl r hr
  trans l hl m hm r hr hlm hmr := by
    rw [hneg] at *
    exact h.trans l hl m hm r hr hlm hmr

theorem orders_congr {compare compare' : κ → κ → ℤ} {keys : Set κ}
    (hneg : ∀ l r, compare' l r < 0 ↔ compare l r < 0)
    (hpos : ∀ l r, 0 < compare' l r ↔ 0 < compare l r) :
    Orders compare' keys ↔ Orders compare keys :=
  ⟨fun h ↦ h.congr (fun l r ↦ (hneg l r).symm) fun l r ↦ (hpos l r).symm,
    fun h ↦ h.congr hneg hpos⟩

/-- The difference of two numbers of a circle, in the half before or the half after. -/
def difference (half : ℕ) (l r : ℤ) : ℤ :=
  Int.bmod (l - r) (2 * half)

/-- The keys lie in one half of the circle. -/
def InHalf (half : ℕ) (keys : Set ℤ) : Prop :=
  ∃ base, ∀ k ∈ keys, (k - base) % (2 * half) < half

theorem difference_spec (hhalf : 0 < half) (l r : ℤ) :
    -half ≤ difference half l r ∧ difference half l r < half ∧
      (2 * half : ℤ) ∣ difference half l r - (l - r) := by
  obtain ⟨hlo, hhi, hdvd⟩ :=
    (Int.bmod_eq_iff (a := l - r) (by omega : 0 < 2 * half)).mp rfl
  refine ⟨?_, ?_, ?_⟩
  · unfold difference
    omega
  · unfold difference
    omega
  · simpa [difference] using hdvd

/-- Between the two halves there is one difference only. -/
theorem difference_eq (hhalf : 0 < half) {l r d : ℤ} (hlo : -half ≤ d) (hhi : d < half)
    (hdvd : (2 * half : ℤ) ∣ d - (l - r)) : difference half l r = d := by
  refine (Int.bmod_eq_iff (by omega)).mpr ⟨by omega, by omega, ?_⟩
  simpa using hdvd

/-- In one half of the circle the difference is that of the distances from its begin. -/
theorem difference_eq_sub (hhalf : 0 < half) {base l r : ℤ} (hl : (l - base) % (2 * half) < half)
    (hr : (r - base) % (2 * half) < half) :
    difference half l r = (l - base) % (2 * half) - (r - base) % (2 * half) := by
  have hnel : 0 ≤ (l - base) % (2 * half) := Int.emod_nonneg _ (by omega)
  have hner : 0 ≤ (r - base) % (2 * half) := Int.emod_nonneg _ (by omega)
  refine difference_eq hhalf (by omega) (by omega) ?_
  have hmod : l - r ≡ (l - base) % (2 * half) - (r - base) % (2 * half) [ZMOD 2 * half] := by
    calc l - r = (l - base) - (r - base) := by ring
      _ ≡ (l - base) % (2 * half) - (r - base) % (2 * half) [ZMOD 2 * half] :=
        (Int.mod_modEq _ _).symm.sub (Int.mod_modEq _ _).symm
  exact Int.modEq_iff_dvd.mp hmod

/-- The distance between two keys is that of their differences from a third one. -/
theorem sub_modEq (hhalf : 0 < half) (k base origin : ℤ) :
    k - base ≡ difference half k origin - difference half base origin [ZMOD 2 * half] := by
  have hmod : ∀ l, l - origin ≡ difference half l origin [ZMOD 2 * half] := fun l ↦
    Int.modEq_iff_dvd.mpr (difference_spec hhalf l origin).2.2
  calc k - base = (k - origin) - (base - origin) := by ring
    _ ≡ difference half k origin - difference half base origin [ZMOD 2 * half] :=
      (hmod k).sub (hmod base)

/-- Comparison by subtraction orders the keys that lie in one half of the circle, and no others. -/
theorem orders_difference_iff (hhalf : 0 < half)
    (hkeys : ∀ l ∈ keys, ∀ r ∈ keys, l - r < 2 * half) :
    Orders (difference half) keys ↔ InHalf half keys := by
  constructor
  · intro h
    rcases keys.eq_empty_or_nonempty with rfl | ⟨origin, horigin⟩
    · exact ⟨0, fun k hk ↦ absurd hk (Set.notMem_empty k)⟩
    -- the key that is furthest behind an arbitrary one is the begin
    obtain ⟨d, ⟨base, hbase, rfl⟩, hleast⟩ : ∃ d, (∃ base ∈ keys, difference half base origin = d) ∧
        ∀ e, (∃ k ∈ keys, difference half k origin = e) → d ≤ e := by
      refine Int.exists_least_of_bdd ⟨-half, ?_⟩ ⟨_, origin, horigin, rfl⟩
      rintro _ ⟨k, -, rfl⟩
      exact (difference_spec hhalf k origin).1
    refine ⟨base, fun k hk ↦ ?_⟩
    obtain ⟨hlo, -, -⟩ := difference_spec hhalf base origin
    obtain ⟨-, hhi, -⟩ := difference_spec hhalf k origin
    have hle : difference half base origin ≤ difference half k origin := hleast _ ⟨k, hk, rfl⟩
    have hmod := sub_modEq hhalf k base origin
    rcases lt_or_ge (difference half k origin - difference half base origin) half with hlt | hge
    · rw [hmod.eq, Int.emod_eq_of_lt (by omega) (by omega)]
      exact hlt
    · -- then the key is behind the begin, and the begin behind the arbitrary one
      have hbehind : difference half k base =
          difference half k origin - difference half base origin - 2 * half := by
        refine difference_eq hhalf (by omega) (by omega) (Int.modEq_iff_dvd.mp ?_)
        exact Int.modEq_sub_modulus_iff.mpr hmod
      have htrans := h.trans k hk base hbase origin horigin (by omega) (by omega)
      omega
  · rintro ⟨base, hbase⟩
    have hsub : ∀ l ∈ keys, ∀ r ∈ keys, difference half l r =
        (l - base) % (2 * half) - (r - base) % (2 * half) := fun l hl r hr ↦
      difference_eq_sub hhalf (hbase l hl) (hbase r hr)
    refine ⟨fun l hl r hr ↦ ?_, fun l hl r hr ↦ ?_, fun l hl m hm r hr ↦ ?_⟩
    · rw [hsub l hl r hr]
      constructor
      · intro hzero
        have hmod : l - base ≡ r - base [ZMOD 2 * half] := sub_eq_zero.mp hzero
        have hdvd : (2 * half : ℤ) ∣ r - base - (l - base) := Int.modEq_iff_dvd.mp hmod
        have hlr := hkeys l hl r hr
        have hrl := hkeys r hr l hl
        have hsame := Int.eq_zero_of_abs_lt_dvd hdvd (abs_lt.mpr ⟨by omega, by omega⟩)
        omega
      · rintro rfl
        exact sub_self _
    · rw [hsub l hl r hr, hsub r hr l hl]
      omega
    · rw [hsub l hl m hm, hsub m hm r hr, hsub l hl r hr]
      omega

end HavokMud.Cyclic
