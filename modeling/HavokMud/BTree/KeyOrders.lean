import HavokMud.BTree.Keys
import HavokMud.Cyclic.Comparison

/-!
# Orders of keys

The callbacks for numbers subtract in the type of the keys.  What they compare is the circle of the
values of that type, so whether they order the keys of a tree depends on where the keys lie.
-/

namespace HavokMud.BTree

open Cyclic

variable {keys : Set ℤ}

/-- The values of an `int`. -/
def intValues : Set ℤ :=
  {k | -2 ^ 31 ≤ k ∧ k < 2 ^ 31}

/-- The values of a `pthread_t` and of an address. -/
def longValues : Set ℤ :=
  {k | 0 ≤ k ∧ k < 2 ^ 64}

/-- `KeyComparePthread`: the difference of two `pthread_t` values, a `long int`. -/
def keyComparePthread (l r : ℤ) : ℤ :=
  clampSign (Int.bmod (l - r) (2 ^ 64))

/-- The sign of a callback is the sign of the difference on the circle. -/
theorem orders_clampSign_iff {half size : ℕ} (hhalf : 0 < half) (hsize : size = 2 * half)
    (hkeys : ∀ l ∈ keys, ∀ r ∈ keys, l - r < 2 * half) :
    Orders (fun l r ↦ clampSign (Int.bmod (l - r) size)) keys ↔ InHalf half keys := by
  subst hsize
  have hsigns : Orders (fun l r ↦ clampSign (Int.bmod (l - r) (2 * half))) keys ↔
      Orders (difference half) keys :=
    orders_congr (fun _ _ ↦ clampSign_neg_iff) fun _ _ ↦ clampSign_pos_iff
  rw [hsigns]
  exact orders_difference_iff hhalf hkeys

theorem orders_keyCompareInt_iff (hkeys : keys ⊆ intValues) :
    Orders keyCompareInt keys ↔ InHalf (2 ^ 31) keys := by
  have hsub : ∀ l ∈ keys, ∀ r ∈ keys, l - r < 2 * (2 ^ 31 : ℕ) := by
    intro l hl r hr
    obtain ⟨-, hl⟩ := hkeys hl
    obtain ⟨hr, -⟩ := hkeys hr
    push_cast
    omega
  exact orders_clampSign_iff (by norm_num) (by norm_num) hsub

theorem orders_long_iff (hkeys : keys ⊆ longValues) :
    Orders (fun l r ↦ clampSign (Int.bmod (l - r) (2 ^ 64))) keys ↔ InHalf (2 ^ 63) keys := by
  have hsub : ∀ l ∈ keys, ∀ r ∈ keys, l - r < 2 * (2 ^ 63 : ℕ) := by
    intro l hl r hr
    obtain ⟨-, hl⟩ := hkeys hl
    obtain ⟨hr, -⟩ := hkeys hr
    push_cast
    omega
  exact orders_clampSign_iff (by norm_num) (by norm_num) hsub

/-- Each callback for numbers orders a set of keys if and only if the keys lie in one half of the
values of their type, counted around the end. -/
theorem keyCompare_orders_iff (keys : Set ℤ) :
    (keys ⊆ intValues → (Orders keyCompareInt keys ↔ InHalf (2 ^ 31) keys)) ∧
      (keys ⊆ longValues → (Orders keyComparePthread keys ↔ InHalf (2 ^ 63) keys)) ∧
      (keys ⊆ longValues → (Orders keyComparePointer keys ↔ InHalf (2 ^ 63) keys)) :=
  ⟨orders_keyCompareInt_iff, orders_long_iff, orders_long_iff⟩

/-- Some keys of either sign, and some addresses. -/
theorem keyCompare_orders_iff_small :
    (Orders keyCompareInt {-5, 0, 7} ↔ InHalf (2 ^ 31) {-5, 0, 7}) ∧
      (Orders keyComparePthread {3, 8} ↔ InHalf (2 ^ 63) {3, 8}) ∧
      (Orders keyComparePointer {4096, 8192} ↔ InHalf (2 ^ 63) {4096, 8192}) := by
  refine ⟨(keyCompare_orders_iff _).1 ?_, (keyCompare_orders_iff _).2.1 ?_,
    (keyCompare_orders_iff _).2.2 ?_⟩
  all_goals
    simp [Set.insert_subset_iff, intValues, longValues]

/-- The greatest `int` and -1 are each less than the other. -/
theorem not_orders_keyCompareInt :
    keyCompareInt 2147483647 (-1) = -1 ∧ keyCompareInt (-1) 2147483647 = -1 ∧
      ¬ Orders keyCompareInt intValues := by
  have hforth : keyCompareInt 2147483647 (-1) = -1 := by decide
  have hback : keyCompareInt (-1) 2147483647 = -1 := by decide
  refine ⟨hforth, hback, fun h ↦ ?_⟩
  have hanti := (h.antisymm 2147483647 (by simp [intValues]) (-1) (by simp [intValues])).mp
    (by rw [hforth]; norm_num)
  rw [hback] at hanti
  norm_num at hanti

end HavokMud.BTree
