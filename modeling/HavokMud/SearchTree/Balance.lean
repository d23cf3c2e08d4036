import HavokMud.SearchTree.Basic
import Mathlib.Data.Nat.Log
import Mathlib.Tactic.Linarith

/-!
# Weight balancing by moving in-order neighbours through the root

A root is levelled by moving its in-order neighbour up from the heavier side and the old root down
to the lighter one, until the two weights differ by at most one.  Levelling the two subtrees in
turn yields a tree that is weight balanced at every node.  Such a tree has the least height its
number of elements allows.

The fuel bounds the number of moves.  The number of nodes is always enough, and more fuel changes
nothing.
-/

namespace HavokMud.SearchTree

open BinaryTree

variable {α : Type*}

/-- Move in-order neighbours through the root until the two weights differ by at most one. -/
def levelRoot : ℕ → BinaryTree α → BinaryTree α
  | 0, t => t
  | _ + 1, .nil => .nil
  | fuel + 1, .node a l r =>
      if r.numNodes + 1 < l.numNodes then
        match popGreatest l with
        | none => .node a l r
        | some (g, l') => levelRoot fuel (.node g l' (.node a .nil r))
      else if l.numNodes + 1 < r.numNodes then
        match popLeast r with
        | none => .node a l r
        | some (m, r') => levelRoot fuel (.node m (.node a l .nil) r')
      else .node a l r

/-- Level the root, then both subtrees. -/
def rebalance : ℕ → BinaryTree α → BinaryTree α
  | 0, t => t
  | fuel + 1, t =>
      match levelRoot fuel t with
      | .nil => .nil
      | .node a l r => .node a (rebalance fuel l) (rebalance fuel r)

/-- Rebalancing with as much fuel as the tree has nodes. -/
def balance (t : BinaryTree α) : BinaryTree α :=
  rebalance t.numNodes t

/-- The two sides of a node differ in weight by at most one. -/
def Level (l r : BinaryTree α) : Prop :=
  l.numNodes ≤ r.numNodes + 1 ∧ r.numNodes ≤ l.numNodes + 1

/-- Every node of the tree is level. -/
def Balanced : BinaryTree α → Prop
  | .nil => True
  | .node _ l r => Level l r ∧ Balanced l ∧ Balanced r

theorem inorder_levelRoot (fuel : ℕ) (t : BinaryTree α) :
    inorder (levelRoot fuel t) = inorder t := by
  induction fuel generalizing t with
  | zero => rfl
  | succ fuel ih =>
      cases t with
      | nil => rfl
      | node a l r =>
          simp only [levelRoot]
          split_ifs
          · split
            · rfl
            · rename_i g l' h
              simp [ih, inorder_popGreatest h]
          · split
            · rfl
            · rename_i m r' h
              simp [ih, inorder_popLeast h]
          · rfl

@[simp]
theorem numNodes_levelRoot (fuel : ℕ) (t : BinaryTree α) :
    (levelRoot fuel t).numNodes = t.numNodes := by
  rw [← length_inorder, inorder_levelRoot, length_inorder]

/-- Each move shrinks the difference of the weights by two, so half the difference is enough
fuel. -/
theorem levelRoot_level {fuel : ℕ} {a : α} {l r : BinaryTree α}
    (hl : l.numNodes ≤ r.numNodes + 2 * fuel + 1) (hr : r.numNodes ≤ l.numNodes + 2 * fuel + 1) :
    ∃ b l' r', levelRoot fuel (.node a l r) = .node b l' r' ∧ Level l' r' := by
  induction fuel generalizing a l r with
  | zero => exact ⟨a, l, r, rfl, by omega, by omega⟩
  | succ fuel ih =>
      simp only [levelRoot]
      split_ifs with hleft hright
      · split
        · rename_i h
          obtain rfl := popGreatest_eq_none.mp h
          simp at hleft
        · rename_i g l' h
          have hsize := numNodes_popGreatest h
          exact ih (by simp only [numNodes]; omega) (by simp only [numNodes]; omega)
      · split
        · rename_i h
          obtain rfl := popLeast_eq_none.mp h
          simp at hright
        · rename_i m r' h
          have hsize := numNodes_popLeast h
          exact ih (by simp only [numNodes]; omega) (by simp only [numNodes]; omega)
      · exact ⟨a, l, r, rfl, by omega, by omega⟩

/-- A levelled root has nothing left to move. -/
theorem levelRoot_of_level {fuel : ℕ} {a : α} {l r : BinaryTree α} (h : Level l r) :
    levelRoot fuel (.node a l r) = .node a l r := by
  cases fuel with
  | zero => rfl
  | succ fuel =>
      have hleft : ¬ r.numNodes + 1 < l.numNodes := by have := h.1; omega
      have hright : ¬ l.numNodes + 1 < r.numNodes := by have := h.2; omega
      simp [levelRoot, hleft, hright]

/-- Past half the weight difference the result does not depend on the fuel. -/
theorem levelRoot_fuel {fuel : ℕ} (extra : ℕ) {a : α} {l r : BinaryTree α}
    (hl : l.numNodes ≤ r.numNodes + 2 * fuel + 1) (hr : r.numNodes ≤ l.numNodes + 2 * fuel + 1) :
    levelRoot (fuel + extra) (.node a l r) = levelRoot fuel (.node a l r) := by
  induction fuel generalizing a l r with
  | zero => exact levelRoot_of_level ⟨by omega, by omega⟩
  | succ fuel ih =>
      rw [Nat.add_right_comm]
      simp only [levelRoot]
      split_ifs with hleft hright
      · split
        · rfl
        · rename_i g l' h
          have hsize := numNodes_popGreatest h
          exact ih (by simp only [numNodes]; omega) (by simp only [numNodes]; omega)
      · split
        · rfl
        · rename_i m r' h
          have hsize := numNodes_popLeast h
          exact ih (by simp only [numNodes]; omega) (by simp only [numNodes]; omega)
      · rfl

theorem inorder_rebalance (fuel : ℕ) (t : BinaryTree α) :
    inorder (rebalance fuel t) = inorder t := by
  induction fuel generalizing t with
  | zero => rfl
  | succ fuel ih =>
      rw [← inorder_levelRoot fuel t]
      simp only [rebalance]
      cases levelRoot fuel t with
      | nil => rfl
      | node a l r => simp [ih]

@[simp]
theorem inorder_balance (t : BinaryTree α) : inorder (balance t) = inorder t :=
  inorder_rebalance _ t

@[simp]
theorem numNodes_rebalance (fuel : ℕ) (t : BinaryTree α) :
    (rebalance fuel t).numNodes = t.numNodes := by
  rw [← length_inorder, inorder_rebalance, length_inorder]

/-- The shape of one round of rebalancing: a level root above the two rebalanced sides. -/
theorem rebalance_succ_node {fuel : ℕ} {a : α} {l r : BinaryTree α}
    (hfuel : (BinaryTree.node a l r).numNodes ≤ fuel + 1) :
    ∃ b l' r', levelRoot fuel (.node a l r) = .node b l' r' ∧ Level l' r' ∧
      l'.numNodes ≤ fuel ∧ r'.numNodes ≤ fuel ∧
      rebalance (fuel + 1) (.node a l r) = .node b (rebalance fuel l') (rebalance fuel r') := by
  simp only [numNodes] at hfuel
  obtain ⟨b, l', r', heq, hlevel⟩ :=
    @levelRoot_level _ fuel a l r (by omega) (by omega)
  have hsize := numNodes_levelRoot fuel (BinaryTree.node a l r)
  rw [heq] at hsize
  simp only [numNodes] at hsize
  exact ⟨b, l', r', heq, hlevel, by omega, by omega, by simp [rebalance, heq]⟩

theorem balanced_rebalance {fuel : ℕ} {t : BinaryTree α} (hfuel : t.numNodes ≤ fuel) :
    Balanced (rebalance fuel t) := by
  induction fuel generalizing t with
  | zero =>
      cases t with
      | nil => trivial
      | node a l r => simp at hfuel
  | succ fuel ih =>
      cases t with
      | nil => cases fuel <;> trivial
      | node a l r =>
          obtain ⟨b, l', r', -, hlevel, hl, hr, heq⟩ := rebalance_succ_node hfuel
          rw [heq]
          exact ⟨by simpa [Level] using hlevel, ih hl, ih hr⟩

theorem balanced_balance (t : BinaryTree α) : Balanced (balance t) :=
  balanced_rebalance le_rfl

/-- With enough fuel for every node, more fuel changes nothing. -/
theorem rebalance_fuel {fuel : ℕ} (extra : ℕ) {t : BinaryTree α} (hfuel : t.numNodes ≤ fuel) :
    rebalance (fuel + extra) t = rebalance fuel t := by
  induction fuel generalizing t with
  | zero =>
      cases t with
      | nil => cases extra with
        | zero => rfl
        | succ extra => cases extra <;> rfl
      | node a l r => simp at hfuel
  | succ fuel ih =>
      cases t with
      | nil =>
          rw [Nat.add_right_comm]
          cases fuel <;> cases extra <;> rfl
      | node a l r =>
          obtain ⟨b, l', r', hlevel, -, hl, hr, heq⟩ := rebalance_succ_node hfuel
          simp only [numNodes] at hfuel
          have hmore := @levelRoot_fuel _ fuel extra a l r (by omega) (by omega)
          rw [Nat.add_right_comm, heq]
          simp only [rebalance, hmore, hlevel, ih hl, ih hr]

theorem rebalance_eq_balance {fuel : ℕ} {t : BinaryTree α} (hfuel : t.numNodes ≤ fuel) :
    rebalance fuel t = balance t := by
  obtain ⟨extra, rfl⟩ := Nat.exists_eq_add_of_le hfuel
  exact rebalance_fuel extra le_rfl

/-- A balanced tree stays as it is. -/
theorem rebalance_of_balanced (fuel : ℕ) {t : BinaryTree α} (h : Balanced t) :
    rebalance fuel t = t := by
  induction fuel generalizing t with
  | zero => rfl
  | succ fuel ih =>
      cases t with
      | nil => cases fuel <;> rfl
      | node a l r =>
          obtain ⟨hlevel, hl, hr⟩ := h
          simp only [rebalance, levelRoot_of_level hlevel, ih hl, ih hr]

theorem balance_eq_self_iff {t : BinaryTree α} : balance t = t ↔ Balanced t := by
  constructor
  · intro h
    rw [← h]
    exact balanced_balance t
  · exact rebalance_of_balanced _

/-! ## Height -/

/-- A balanced tree reaches down exactly as far as its weight forces it to. -/
theorem Balanced.height_eq {t : BinaryTree α} (h : Balanced t) :
    t.height = Nat.clog 2 (t.numNodes + 1) := by
  induction t with
  | nil => simp
  | node a l r ihl ihr =>
      obtain ⟨⟨hlr, hrl⟩, hl, hr⟩ := h
      rw [height, ihl hl, ihr hr, numNodes]
      have hclog : Nat.clog 2 (l.numNodes + r.numNodes + 1 + 1) =
          Nat.clog 2 ((l.numNodes + r.numNodes + 1 + 1 + 2 - 1) / 2) + 1 :=
        Nat.clog_of_two_le (by omega) (by omega)
      rw [hclog]
      congr 1
      -- the heavier side holds the larger half of the remaining elements
      rcases Nat.le_total l.numNodes r.numNodes with hle | hle
      · rw [max_eq_right (Nat.clog_mono_right 2 (by omega))]
        congr 1
        omega
      · rw [max_eq_left (Nat.clog_mono_right 2 (by omega))]
        congr 1
        omega

/-- No tree is lower than its weight forces it to be. -/
theorem clog_le_height (t : BinaryTree α) : Nat.clog 2 (t.numNodes + 1) ≤ t.height := by
  rw [Nat.clog_le_iff_le_pow (by omega)]
  induction t with
  | nil => simp
  | node a l r ihl ihr =>
      rw [height, numNodes, pow_succ]
      have hleft : l.numNodes + 1 ≤ 2 ^ max l.height r.height :=
        ihl.trans (Nat.pow_le_pow_right (by omega) (le_max_left _ _))
      have hright : r.numNodes + 1 ≤ 2 ^ max l.height r.height :=
        ihr.trans (Nat.pow_le_pow_right (by omega) (le_max_right _ _))
      omega

end HavokMud.SearchTree
