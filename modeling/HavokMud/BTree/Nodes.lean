import Mathlib.Data.Int.Notation
import Mathlib.Data.Nat.Notation
import Mathlib.Logic.Function.Basic
import Mathlib.Tactic.SplitIfs

/-!
# The node graph of a balanced binary tree

`balanced_btree.c` keeps its trees as records linked by `left`, `right` and `parent` pointers that
are edited in place.  The heap below holds every `BalancedBTreeItem_t` of the program, one map per
field, together with the root of every `BalancedBTree_t`.  `NULL` is `none`.

The mutex of a tree is not part of this layer: the `locked` argument of the functions only decides
whether the mutex is taken and never which links are written.

The loops and the recursion of the source follow links and end only on a finite acyclic graph, so
each function here takes a bound on the number of links it follows and answers `none` when the
bound is used up, or when the source would follow a `NULL` pointer.
-/

namespace HavokMud.BTree

/-- All tree items of the program (`ι` their addresses, `κ` their keys) and the roots of all trees
(`τ` their addresses). -/
@[ext]
structure Heap (ι κ τ : Type) where
  left : ι → Option ι
  right : ι → Option ι
  parent : ι → Option ι
  key : ι → κ
  btree : ι → Option τ
  visited : ι → ℕ
  root : τ → Option ι

variable {ι κ τ : Type}

namespace Heap

variable [DecidableEq ι] [DecidableEq τ]

def setLeft (h : Heap ι κ τ) (a : ι) (p : Option ι) : Heap ι κ τ :=
  { h with left := Function.update h.left a p }

def setRight (h : Heap ι κ τ) (a : ι) (p : Option ι) : Heap ι κ τ :=
  { h with right := Function.update h.right a p }

def setParent (h : Heap ι κ τ) (a : ι) (p : Option ι) : Heap ι κ τ :=
  { h with parent := Function.update h.parent a p }

def setBtree (h : Heap ι κ τ) (a : ι) (b : Option τ) : Heap ι κ τ :=
  { h with btree := Function.update h.btree a b }

def setVisited (h : Heap ι κ τ) (a : ι) (n : ℕ) : Heap ι κ τ :=
  { h with visited := Function.update h.visited a n }

def setRoot (h : Heap ι κ τ) (b : τ) (p : Option ι) : Heap ι κ τ :=
  { h with root := Function.update h.root b p }

/-- `if( child ) child->parent = p`. -/
def setParentOf (h : Heap ι κ τ) (child : Option ι) (p : Option ι) : Heap ι κ τ :=
  match child with
  | none => h
  | some c => h.setParent c p

/-- Let the parent's link, or the root of the tree, that pointed to `old` point to `new`.  Both
`BalancedBTreeReplace` and `BalancedBTreeRebalance` end with this fragment. -/
def relink (h : Heap ι κ τ) (btree : τ) (parent : Option ι) (old : ι) (new : Option ι) :
    Heap ι κ τ :=
  match parent with
  | none => h.setRoot btree new
  | some q => if h.left q = some old then h.setLeft q new else h.setRight q new

end Heap

/-! ### What each edit leaves behind -/

namespace Heap

section Links

variable [DecidableEq ι] (h : Heap ι κ τ) (a b : ι) (p : Option ι)

@[simp]
theorem left_setLeft : (h.setLeft a p).left b = if b = a then p else h.left b :=
  Function.update_apply _ _ _ _

@[simp] theorem right_setLeft : (h.setLeft a p).right = h.right := rfl
@[simp] theorem parent_setLeft : (h.setLeft a p).parent = h.parent := rfl
@[simp] theorem key_setLeft : (h.setLeft a p).key = h.key := rfl
@[simp] theorem btree_setLeft : (h.setLeft a p).btree = h.btree := rfl
@[simp] theorem root_setLeft : (h.setLeft a p).root = h.root := rfl
@[simp] theorem visited_setLeft : (h.setLeft a p).visited = h.visited := rfl

@[simp]
theorem right_setRight : (h.setRight a p).right b = if b = a then p else h.right b :=
  Function.update_apply _ _ _ _

@[simp] theorem left_setRight : (h.setRight a p).left = h.left := rfl
@[simp] theorem parent_setRight : (h.setRight a p).parent = h.parent := rfl
@[simp] theorem key_setRight : (h.setRight a p).key = h.key := rfl
@[simp] theorem btree_setRight : (h.setRight a p).btree = h.btree := rfl
@[simp] theorem root_setRight : (h.setRight a p).root = h.root := rfl
@[simp] theorem visited_setRight : (h.setRight a p).visited = h.visited := rfl

@[simp]
theorem parent_setParent : (h.setParent a p).parent b = if b = a then p else h.parent b :=
  Function.update_apply _ _ _ _

@[simp] theorem left_setParent : (h.setParent a p).left = h.left := rfl
@[simp] theorem right_setParent : (h.setParent a p).right = h.right := rfl
@[simp] theorem key_setParent : (h.setParent a p).key = h.key := rfl
@[simp] theorem btree_setParent : (h.setParent a p).btree = h.btree := rfl
@[simp] theorem root_setParent : (h.setParent a p).root = h.root := rfl
@[simp] theorem visited_setParent : (h.setParent a p).visited = h.visited := rfl

@[simp]
theorem btree_setBtree (o : Option τ) :
    (h.setBtree a o).btree b = if b = a then o else h.btree b :=
  Function.update_apply _ _ _ _

@[simp] theorem left_setBtree (o : Option τ) : (h.setBtree a o).left = h.left := rfl
@[simp] theorem right_setBtree (o : Option τ) : (h.setBtree a o).right = h.right := rfl
@[simp] theorem parent_setBtree (o : Option τ) : (h.setBtree a o).parent = h.parent := rfl
@[simp] theorem key_setBtree (o : Option τ) : (h.setBtree a o).key = h.key := rfl
@[simp] theorem root_setBtree (o : Option τ) : (h.setBtree a o).root = h.root := rfl
@[simp] theorem visited_setBtree (o : Option τ) : (h.setBtree a o).visited = h.visited := rfl

variable (c : Option ι)

@[simp]
theorem parent_setParentOf :
    (h.setParentOf c p).parent b = if c = some b then p else h.parent b := by
  cases c with
  | none => simp [setParentOf]
  | some d => simp [setParentOf, eq_comm]

@[simp] theorem left_setParentOf : (h.setParentOf c p).left = h.left := by cases c <;> rfl
@[simp] theorem right_setParentOf : (h.setParentOf c p).right = h.right := by cases c <;> rfl
@[simp] theorem key_setParentOf : (h.setParentOf c p).key = h.key := by cases c <;> rfl
@[simp] theorem btree_setParentOf : (h.setParentOf c p).btree = h.btree := by cases c <;> rfl
@[simp] theorem root_setParentOf : (h.setParentOf c p).root = h.root := by cases c <;> rfl
@[simp] theorem visited_setParentOf : (h.setParentOf c p).visited = h.visited := by cases c <;> rfl

end Links

section Roots

variable [DecidableEq τ] (h : Heap ι κ τ) (p : Option ι) (t : τ)

@[simp]
theorem root_setRoot (t' : τ) : (h.setRoot t p).root t' = if t' = t then p else h.root t' :=
  Function.update_apply _ _ _ _

@[simp] theorem left_setRoot : (h.setRoot t p).left = h.left := rfl
@[simp] theorem right_setRoot : (h.setRoot t p).right = h.right := rfl
@[simp] theorem parent_setRoot : (h.setRoot t p).parent = h.parent := rfl
@[simp] theorem key_setRoot : (h.setRoot t p).key = h.key := rfl
@[simp] theorem btree_setRoot : (h.setRoot t p).btree = h.btree := rfl
@[simp] theorem visited_setRoot : (h.setRoot t p).visited = h.visited := rfl

variable [DecidableEq ι] (a b : ι) (c : Option ι)

@[simp]
theorem parent_relink : (h.relink t c a p).parent = h.parent := by
  unfold relink; split
  · rfl
  · split_ifs <;> rfl

@[simp]
theorem key_relink : (h.relink t c a p).key = h.key := by
  unfold relink; split
  · rfl
  · split_ifs <;> rfl

@[simp]
theorem btree_relink : (h.relink t c a p).btree = h.btree := by
  unfold relink; split
  · rfl
  · split_ifs <;> rfl

@[simp]
theorem visited_relink : (h.relink t c a p).visited = h.visited := by
  unfold relink; split
  · rfl
  · split_ifs <;> rfl

/-- Relinking writes one child link of the parent. -/
theorem left_relink_of_ne (hb : c ≠ some b) : (h.relink t c a p).left b = h.left b := by
  unfold relink
  cases c with
  | none => rfl
  | some q =>
      have hq : b ≠ q := fun heq ↦ hb (by rw [heq])
      dsimp only
      split_ifs <;> simp [hq]

theorem right_relink_of_ne (hb : c ≠ some b) : (h.relink t c a p).right b = h.right b := by
  unfold relink
  cases c with
  | none => rfl
  | some q =>
      have hq : b ≠ q := fun heq ↦ hb (by rw [heq])
      dsimp only
      split_ifs <;> simp [hq]

theorem root_relink_of_ne (t' : τ) (ht : t' ≠ t) : (h.relink t c a p).root t' = h.root t' := by
  unfold relink
  cases c with
  | none => simp [ht]
  | some q => dsimp only; split_ifs <;> simp

end Roots

end Heap

variable [DecidableEq ι] [DecidableEq τ]

/-- The number of items below a pointer, the item itself included. -/
def balancedBTreeWeight (h : Heap ι κ τ) : ℕ → Option ι → Option ℕ
  | _, none => some 0
  | 0, some _ => none
  | fuel + 1, some a => do
      let left ← balancedBTreeWeight h fuel (h.left a)
      let right ← balancedBTreeWeight h fuel (h.right a)
      some (1 + left + right)

/-- The loop of `BalancedBTreeFindGreatest`. -/
def findGreatestLoop (h : Heap ι κ τ) : ℕ → Option ι → Option ι → Option (Option ι)
  | _, prev, none => some prev
  | 0, _, some _ => none
  | fuel + 1, _, some a => findGreatestLoop h fuel (some a) (h.right a)

def balancedBTreeFindGreatest (h : Heap ι κ τ) (fuel : ℕ) (root : Option ι) :
    Option (Option ι) :=
  findGreatestLoop h fuel none root

/-- The loop of `BalancedBTreeFindLeast`. -/
def findLeastLoop (h : Heap ι κ τ) : ℕ → Option ι → Option ι → Option (Option ι)
  | _, prev, none => some prev
  | 0, _, some _ => none
  | fuel + 1, _, some a => findLeastLoop h fuel (some a) (h.left a)

def balancedBTreeFindLeast (h : Heap ι κ τ) (fuel : ℕ) (root : Option ι) :
    Option (Option ι) :=
  findLeastLoop h fuel none root

/-- The loop of `BalancedBTreeFindParent`: equal keys descend to the right. -/
def findParentLoop (keyCompare : κ → κ → ℤ) (h : Heap ι κ τ) (key : κ) :
    ℕ → Option ι → Option ι → Option (Option ι)
  | _, parent, none => some parent
  | 0, _, some _ => none
  | fuel + 1, _, some a =>
      findParentLoop keyCompare h key fuel (some a)
        (if keyCompare key (h.key a) < 0 then h.left a else h.right a)

def balancedBTreeFindParent (keyCompare : κ → κ → ℤ) (h : Heap ι κ τ) (fuel : ℕ) (btree : τ)
    (key : κ) : Option (Option ι) :=
  findParentLoop keyCompare h key fuel none (h.root btree)

/-- The loop of `BalancedBTreeFind`, with `keyCompare` or `keyCompareAlt` as its comparator. -/
def findLoop (keyCompare : κ → κ → ℤ) (h : Heap ι κ τ) (key : κ) :
    ℕ → Option ι → Option (Option ι)
  | _, none => some none
  | 0, some _ => none
  | fuel + 1, some a =>
      let res := keyCompare key (h.key a)
      if res = 0 then some (some a)
      else findLoop keyCompare h key fuel (if res < 0 then h.left a else h.right a)

def balancedBTreeFind (keyCompare : κ → κ → ℤ) (h : Heap ι κ τ) (fuel : ℕ) (btree : τ)
    (key : κ) : Option (Option ι) :=
  findLoop keyCompare h key fuel (h.root btree)

/-- The part of `BalancedBTreeReplace` that hands the links of `item` to `replace`, which has at
most one subtree. -/
def takeLinks (h : Heap ι κ τ) (item replace : ι) : Option (Heap ι κ τ) := do
  let q ← h.parent replace
  if q ≠ item then
    let h :=
      if h.left q = some replace then
        -- the least of the right subtree
        (h.setLeft q (h.right replace)).setParentOf (h.right replace) (some q)
      else if h.right q = some replace then
        -- the greatest of the left subtree
        (h.setRight q (h.left replace)).setParentOf (h.left replace) (some q)
      else h
    let h := h.setRight replace (h.right item)
    let h := h.setParentOf (h.right replace) (some replace)
    let h := h.setLeft replace (h.left item)
    some (h.setParentOf (h.left replace) (some replace))
  else if h.right item = some replace then
    let h := h.setLeft replace (h.left item)
    some (h.setParentOf (h.left replace) (some replace))
  else if h.left item = some replace then
    let h := h.setRight replace (h.right item)
    some (h.setParentOf (h.right replace) (some replace))
  else some h

def balancedBTreeReplace (h : Heap ι κ τ) (btree : τ) (item : ι) (replace : Option ι) :
    Option (Heap ι κ τ) := do
  if replace = some item then
    some h
  else
    let h ← match replace with
      | some new => do
          let h ← takeLinks h item new
          let h := h.setParent new (h.parent item)
          some (h.relink btree (h.parent new) item (some new))
      | none => some (h.relink btree (h.parent item) item none)
    some (((h.setLeft item none).setRight item none).setParent item none)

/-- The body of the loop of `BalancedBTreeRebalance` when the left subtree is too heavy: the
greatest item of the left subtree becomes the root. -/
def shiftRight (h : Heap ι κ τ) (root item : ι) : Option (Heap ι κ τ) := do
  let left := h.left item
  let parent := h.parent item
  let h := h.setParent item (h.parent root)
  let h := h.setRight item (some root)
  let h :=
    if h.left root ≠ some item then
      let h := h.setLeft item (h.left root)
      h.setParentOf (h.left item) (some item)
    else h
  let h := h.setParent root (some item)
  let h := h.setLeft root none
  if parent ≠ some root then
    let q ← parent
    let h := h.setRight q left
    some (h.setParentOf left (some q))
  else some h

/-- The body of the loop when the right subtree is too heavy: the least item of the right subtree
becomes the root. -/
def shiftLeft (h : Heap ι κ τ) (root item : ι) : Option (Heap ι κ τ) := do
  let right := h.right item
  let parent := h.parent item
  let h := h.setParent item (h.parent root)
  let h := h.setLeft item (some root)
  let h :=
    if h.right root ≠ some item then
      let h := h.setRight item (h.right root)
      h.setParentOf (h.right item) (some item)
    else h
  let h := h.setParent root (some item)
  let h := h.setRight root none
  if parent ≠ some root then
    let q ← parent
    let h := h.setLeft q right
    some (h.setParentOf right (some q))
  else some h

/-- The loop of `BalancedBTreeRebalance`, with the root it ends at. -/
def rebalanceLoop (btree : τ) : ℕ → Heap ι κ τ → ι → Option (Heap ι κ τ × ι)
  | 0, _, _ => none
  | fuel + 1, h, root => do
      let left ← balancedBTreeWeight h (fuel + 1) (h.left root)
      let right ← balancedBTreeWeight h (fuel + 1) (h.right root)
      let res : ℤ := left - right
      if 1 < res then
        let item ← (← balancedBTreeFindGreatest h (fuel + 1) (h.left root))
        let h ← shiftRight h root item
        rebalanceLoop btree fuel (h.relink btree (h.parent item) root (some item)) item
      else if res < -1 then
        let item ← (← balancedBTreeFindLeast h (fuel + 1) (h.right root))
        let h ← shiftLeft h root item
        rebalanceLoop btree fuel (h.relink btree (h.parent item) root (some item)) item
      else some (h, root)

def balancedBTreeRebalance (btree : τ) : ℕ → Heap ι κ τ → Option ι → Option (Heap ι κ τ)
  | _, h, none => some h
  | 0, _, some _ => none
  | fuel + 1, h, some a => do
      let (h, root) ← rebalanceLoop btree (fuel + 1) h a
      let h ← balancedBTreeRebalance btree fuel h (h.left root)
      balancedBTreeRebalance btree fuel h (h.right root)

/-- `BalancedBTreeAdd`.  Without an item the call only rebalances.  An item whose key is already
on the tree is reported and linked to its parent only from its own side. -/
def balancedBTreeAdd (keyCompare : κ → κ → ℤ) (fuel : ℕ) (h : Heap ι κ τ) (btree : τ)
    (item : Option ι) (rebalance : Bool) : Option (Heap ι κ τ) := do
  let h ← match item with
    | none => some h
    | some a => do
        let h := ((h.setBtree a (some btree)).setLeft a none).setRight a none
        let parent ← balancedBTreeFindParent keyCompare h fuel btree (h.key a)
        let h := h.setParent a parent
        match parent with
        | none => some (h.setRoot btree (some a))
        | some q =>
            let res := keyCompare (h.key a) (h.key q)
            if 0 < res then some (h.setRight q (some a))
            else if res < 0 then some (h.setLeft q (some a))
            else some h
  if rebalance then balancedBTreeRebalance btree fuel h (h.root btree) else some h

/-- `BalancedBTreeRemove`.  An item of another tree is reported and left alone. -/
def balancedBTreeRemove (fuel : ℕ) (h : Heap ι κ τ) (btree : τ) (item : Option ι)
    (rebalance : Bool) : Option (Heap ι κ τ) := do
  match item with
  | none => if rebalance then balancedBTreeRebalance btree fuel h (h.root btree) else some h
  | some a =>
      if h.btree a ≠ some btree then some h
      else
        let left ← balancedBTreeWeight h fuel (h.left a)
        let right ← balancedBTreeWeight h fuel (h.right a)
        let replace ←
          if right < left then balancedBTreeFindGreatest h fuel (h.left a)
          else balancedBTreeFindLeast h fuel (h.right a)
        let h ← balancedBTreeReplace h btree a replace
        let h := h.setBtree a none
        if rebalance then balancedBTreeRebalance btree fuel h (h.root btree) else some h

end HavokMud.BTree
