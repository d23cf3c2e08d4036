import HavokMud.BTree.Operations
import HavokMud.SearchTree.Index

/-!
# Trees by value

The clients of `balanced_btree.c` see a tree as the finite tree of its items.  The functions below
are the calls they make, on the finite tree; each is what the edited node graph represents.
-/

namespace HavokMud.BTree

open BinaryTree SearchTree

variable {ι κ τ : Type}

/-- `BalancedBTreeFind` with `alternate = FALSE`. -/
def treeFind (keyCompare : κ → κ → ℤ) (key : ι → κ) (k : κ) (t : BinaryTree ι) : Option ι :=
  find (fun b ↦ keyCompare k (key b)) t

/-- `BalancedBTreeFindLeastInRange` with `end = NULL`. -/
def treeFindLeastFrom (keyCompare : κ → κ → ℤ) (key : ι → κ) (k : κ) (t : BinaryTree ι) :
    Option ι :=
  leastFrom (fun b ↦ keyCompare k (key b)) none t

theorem balancedBTreeFind_eq_treeFind {keyCompare : κ → κ → ℤ} {h : Heap ι κ τ} {btree : τ}
    {t : BinaryTree ι} (hrep : Represents h btree t) {fuel : ℕ} (hfuel : t.numNodes ≤ fuel)
    (k : κ) : balancedBTreeFind keyCompare h fuel btree k = some (treeFind keyCompare h.key k t) :=
  balancedBTreeFind_eq hrep hfuel k

variable [DecidableEq ι] [DecidableEq τ]

/-- `BalancedBTreeAdd` with `rebalance = TRUE`.  The call is meant for an item that is not on the
tree and whose key is not on it either; otherwise the links it leaves are no tree of the items. -/
def treeAdd (keyCompare : κ → κ → ℤ) (key : ι → κ) (a : ι) (t : BinaryTree ι) :
    Option (BinaryTree ι) :=
  if a ∈ inorder t ∨ ∃ b ∈ inorder t, keyCompare (key a) (key b) = 0 then none
  else some (balance (SearchTree.insert (fun b ↦ keyCompare (key a) (key b)) a t))

/-- `BalancedBTreeRemove` with `rebalance = TRUE` of an item on the tree. -/
def treeRemove (a : ι) (t : BinaryTree ι) : BinaryTree ι :=
  balance (remove a t)

theorem balancedBTreeAdd_represents {keyCompare : κ → κ → ℤ} {h : Heap ι κ τ} {btree : τ}
    {t t' : BinaryTree ι} {a : ι} {fuel : ℕ} (hrep : Represents h btree t)
    (hadd : treeAdd keyCompare h.key a t = some t') (hfuel : t.numNodes < fuel) :
    ∃ h', balancedBTreeAdd keyCompare fuel h btree (some a) true = some h' ∧
      Represents h' btree t' ∧ Frame btree (a :: inorder t) (h.setBtree a (some btree)) h' := by
  unfold treeAdd at hadd
  split_ifs at hadd with hfresh
  push Not at hfresh
  obtain rfl : balance (SearchTree.insert (fun b ↦ keyCompare (h.key a) (h.key b)) a t) = t' := by
    simpa using hadd
  exact balancedBTreeAdd_spec hrep hfresh.1 hfresh.2 hfuel true

theorem balancedBTreeRemove_represents {h : Heap ι κ τ} {btree : τ} {t : BinaryTree ι} {a : ι}
    {fuel : ℕ} (hrep : Represents h btree t) (ha : a ∈ inorder t)
    (howner : h.btree a = some btree) (hfuel : t.numNodes ≤ fuel) :
    ∃ h', balancedBTreeRemove fuel h btree (some a) true = some h' ∧
      Represents h' btree (treeRemove a t) ∧ Frame btree (inorder t) (h.setBtree a none) h' :=
  balancedBTreeRemove_spec hrep ha howner hfuel true

/-! ## Trees sorted by rank -/

section Sorted

omit [DecidableEq τ]

variable {ω : Type} [LinearOrder ω] {keyCompare : κ → κ → ℤ} {key : ι → κ} {rank : ι → ω}
  {t : BinaryTree ι} {a : ι}

/-- An item of a new rank can be added. -/
theorem treeAdd_sorted (hsorted : Sorted rank t)
    (hagrees : Agrees (fun b ↦ keyCompare (key a) (key b)) rank (rank a) t)
    (hfresh : ∀ b ∈ inorder t, rank b ≠ rank a) :
    ∃ t', treeAdd keyCompare key a t = some t' ∧ Sorted rank t' ∧
      ∀ b, b ∈ inorder t' ↔ b = a ∨ b ∈ inorder t := by
  have hnew : ¬ (a ∈ inorder t ∨ ∃ b ∈ inorder t, keyCompare (key a) (key b) = 0) := by
    rintro (ha | ⟨b, hb, hzero⟩)
    · exact hfresh a ha rfl
    · exact hfresh b hb ((hagrees.eq_zero_iff hb).mp hzero)
  exact ⟨_, if_neg hnew, hsorted.balance_insert hagrees hfresh, fun b ↦ mem_balance_insert⟩

theorem treeRemove_sorted (hsorted : Sorted rank t) (a : ι) : Sorted rank (treeRemove a t) :=
  hsorted.balance_remove a

theorem mem_treeRemove (hsorted : Sorted rank t) {b : ι} :
    b ∈ inorder (treeRemove a t) ↔ b ≠ a ∧ b ∈ inorder t :=
  hsorted.mem_balance_remove

end Sorted

end HavokMud.BTree
