import HavokMud.SearchTree.Balance
import Mathlib.Data.List.Pairwise

/-!
# Trees as indexes

A tree kept sorted by a rank of its elements is an index: the element of a given rank is found,
elements of new ranks are added, and an element is taken out again, rebalancing each time.  The
comparisons are made by a probe that need only agree with the ranks on the elements at hand.
-/

namespace HavokMud.SearchTree

open BinaryTree

variable {α ω : Type*} [LinearOrder ω]

/-- The elements of the tree from left to right have increasing ranks. -/
def Sorted (rank : α → ω) (t : BinaryTree α) : Prop :=
  (inorder t).Pairwise fun x y ↦ rank x < rank y

/-- On the elements of the tree the probe compares `key` with the rank. -/
structure Agrees (probe : α → ℤ) (rank : α → ω) (key : ω) (t : BinaryTree α) : Prop where
  neg_iff : ∀ x ∈ inorder t, probe x < 0 ↔ key < rank x
  pos_iff : ∀ x ∈ inorder t, 0 < probe x ↔ rank x < key

variable {rank rank' : α → ω} {key : ω} {probe : α → ℤ} {t : BinaryTree α}

/-- The outcome of a comparison is zero where neither rank is the smaller one. -/
theorem eq_zero_iff_of_order {z : ℤ} {a b : ω} (hneg : z < 0 ↔ a < b) (hpos : 0 < z ↔ b < a) :
    z = 0 ↔ a = b := by
  constructor
  · intro hzero
    refine le_antisymm (not_lt.mp (mt hpos.mpr ?_)) (not_lt.mp (mt hneg.mpr ?_)) <;> omega
  · intro heq
    have hle : ¬ z < 0 := fun hlt ↦ (hneg.mp hlt).ne heq
    have hge : ¬ 0 < z := fun hlt ↦ (hpos.mp hlt).ne heq.symm
    omega

theorem Agrees.eq_zero_iff (hagrees : Agrees probe rank key t) {x : α} (hx : x ∈ inorder t) :
    probe x = 0 ↔ rank x = key :=
  (eq_zero_iff_of_order (hagrees.neg_iff x hx) (hagrees.pos_iff x hx)).trans eq_comm

theorem sorted_nil : Sorted rank (.nil : BinaryTree α) :=
  List.Pairwise.nil

theorem Sorted.nodup (hsorted : Sorted rank t) : (inorder t).Nodup :=
  hsorted.imp fun hlt heq ↦ hlt.ne (congrArg rank heq)

theorem Sorted.congr (hsorted : Sorted rank t) (hrank : ∀ x ∈ inorder t, rank' x = rank x) :
    Sorted rank' t := by
  refine hsorted.imp_of_mem ?_
  intro x y hx hy hlt
  rw [hrank x hx, hrank y hy]
  exact hlt

/-- With a smaller rank for one element the tree stays sorted if that rank passes no other. -/
theorem Sorted.lower_iff (hsorted : Sorted rank t) {a : α} (ha : a ∈ inorder t)
    (hle : rank' a ≤ rank a) (hrank : ∀ x ∈ inorder t, x ≠ a → rank' x = rank x) :
    Sorted rank' t ↔ ∀ x ∈ inorder t, rank x < rank a → rank x < rank' a := by
  constructor
  · intro hsorted' x hx hlt
    have hne : x ≠ a := fun heq ↦ hlt.ne (congrArg rank heq)
    have hsymm : Std.Symm fun x y ↦ (rank x < rank y ∧ rank' x < rank' y) ∨
        (rank y < rank x ∧ rank' y < rank' x) := ⟨fun _ _ h ↦ h.symm⟩
    have hboth : (inorder t).Pairwise fun x y ↦ (rank x < rank y ∧ rank' x < rank' y) ∨
        (rank y < rank x ∧ rank' y < rank' x) := (hsorted.and hsorted').imp Or.inl
    rcases hboth.forall hx ha hne with ⟨-, hlt'⟩ | ⟨hlt', -⟩
    · rwa [hrank x hx hne] at hlt'
    · exact absurd hlt hlt'.not_gt
  · intro hpass
    refine hsorted.imp_of_mem ?_
    intro x y hx hy hlt
    rcases eq_or_ne y a with rfl | hy'
    · rw [hrank x hx fun heq ↦ hlt.ne (congrArg rank heq)]
      exact hpass x hx hlt
    · rw [hrank y hy hy']
      rcases eq_or_ne x a with rfl | hx'
      · exact hle.trans_lt hlt
      · rwa [hrank x hx hx']

theorem Sorted.cut (hsorted : Sorted rank t) (hagrees : Agrees probe rank key t) :
    Cut probe (inorder t) :=
  Cut.of_rank hsorted hagrees.neg_iff hagrees.pos_iff

/-- The search finds exactly the element of the rank searched for. -/
theorem Sorted.find_eq_some_iff (hsorted : Sorted rank t) (hagrees : Agrees probe rank key t)
    {a : α} : find probe t = some a ↔ a ∈ inorder t ∧ rank a = key := by
  rw [SearchTree.find_eq_some_iff (hsorted.cut hagrees)]
  constructor
  · exact fun ⟨ha, hzero⟩ ↦ ⟨ha, (hagrees.eq_zero_iff ha).mp hzero⟩
  · exact fun ⟨ha, heq⟩ ↦ ⟨ha, (hagrees.eq_zero_iff ha).mpr heq⟩

theorem Sorted.find_eq_none_iff (hsorted : Sorted rank t) (hagrees : Agrees probe rank key t) :
    find probe t = none ↔ ∀ a ∈ inorder t, rank a ≠ key := by
  rw [SearchTree.find_eq_none_iff (hsorted.cut hagrees)]
  exact forall₂_congr fun a ha ↦ not_congr (hagrees.eq_zero_iff ha)

theorem Sorted.balance_insert (hsorted : Sorted rank t) {a : α}
    (hagrees : Agrees probe rank (rank a) t) (hfresh : ∀ x ∈ inorder t, rank x ≠ rank a) :
    Sorted rank (balance (insert probe a t)) := by
  rw [Sorted, inorder_balance]
  exact sorted_insert hsorted hagrees.neg_iff hagrees.pos_iff hfresh

theorem mem_balance_insert {a x : α} :
    x ∈ inorder (balance (insert probe a t)) ↔ x = a ∨ x ∈ inorder t := by
  rw [inorder_balance, mem_inorder_insert]

theorem Sorted.balance_remove [DecidableEq α] (hsorted : Sorted rank t) (a : α) :
    Sorted rank (balance (remove a t)) := by
  rw [Sorted, inorder_balance, inorder_remove hsorted.nodup]
  exact hsorted.sublist List.erase_sublist

theorem Sorted.mem_balance_remove [DecidableEq α] (hsorted : Sorted rank t) {a x : α} :
    x ∈ inorder (balance (remove a t)) ↔ x ≠ a ∧ x ∈ inorder t := by
  rw [inorder_balance, mem_inorder_remove hsorted.nodup]

/-! ## The least element from a key on -/

/-- Descend to the place of a key, keeping the last element passed on its left.  An element of the
very key is taken only when nothing hangs to its right. -/
def leastFrom (probe : α → ℤ) (nearest : Option α) : BinaryTree α → Option α
  | .nil => nearest
  | .node a l r =>
      if probe a < 0 then leastFrom probe (some a) l
      else if probe a = 0 ∧ r.numNodes = 0 then some a
      else leastFrom probe nearest r

theorem leastFrom_mem {nearest : Option α} {a : α} (h : leastFrom probe nearest t = some a) :
    nearest = some a ∨ a ∈ inorder t ∧ probe a ≤ 0 := by
  induction t generalizing nearest with
  | nil => exact Or.inl h
  | node b l r ihl ihr =>
      rw [leastFrom] at h
      rw [inorder_node, List.mem_append, List.mem_cons]
      split_ifs at h with hneg hzero
      · rcases ihl h with heq | ⟨ha, hle⟩
        · obtain rfl : b = a := by simpa using heq
          exact Or.inr ⟨Or.inr (Or.inl rfl), hneg.le⟩
        · exact Or.inr ⟨Or.inl ha, hle⟩
      · obtain rfl : b = a := by simpa using h
        exact Or.inr ⟨Or.inr (Or.inl rfl), hzero.1.le⟩
      · rcases ihr h with heq | ⟨ha, hle⟩
        · exact Or.inl heq
        · exact Or.inr ⟨Or.inr (Or.inr ha), hle⟩

theorem leastFrom_ne_none {nearest : Option α} (h : nearest ≠ none) :
    leastFrom probe nearest t ≠ none := by
  induction t generalizing nearest with
  | nil => exact h
  | node a l r ihl ihr =>
      rw [leastFrom]
      split_ifs
      · exact ihl (Option.some_ne_none a)
      · exact Option.some_ne_none a
      · exact ihr h

/-- Where nothing is found every element is below the key. -/
theorem pos_of_leastFrom_eq_none (hcut : Cut probe (inorder t))
    (h : leastFrom probe none t = none) {a : α} (ha : a ∈ inorder t) : 0 < probe a := by
  induction t generalizing a with
  | nil => cases ha
  | node b l r _ ihr =>
      obtain ⟨-, hr, hlb, hbr, -⟩ := Cut.node_iff.mp hcut
      rw [leastFrom] at h
      split_ifs at h with hneg hzero
      · exact absurd h (leastFrom_ne_none (Option.some_ne_none b))
      · have hright : ∀ y ∈ inorder r, 0 < probe y := fun y hy ↦ ihr hr h hy
        have hb : 0 < probe b := by
          rcases (not_lt.mp hneg).lt_or_eq with hpos | heq
          · exact hpos
          · have hne : r.numNodes ≠ 0 := fun hnone ↦ hzero ⟨heq.symm, hnone⟩
            obtain ⟨y, hy⟩ := List.exists_mem_of_ne_nil (inorder r) (by
              rw [ne_eq, inorder_eq_nil]
              rintro rfl
              exact hne rfl)
            exact absurd (hbr y hy heq.ge) (hright y hy).not_gt
        rw [inorder_node, List.mem_append, List.mem_cons] at ha
        rcases ha with ha | rfl | ha
        · exact not_le.mp fun hle ↦ hneg (hlb a ha hle)
        · exact hb
        · exact hright a ha

end HavokMud.SearchTree
