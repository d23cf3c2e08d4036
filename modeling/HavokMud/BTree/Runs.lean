import HavokMud.BTree.Operations
import Mathlib.Data.List.Perm.Basic

/-!
# Runs of a balanced binary tree

A tree starts empty and is then edited by `BalancedBTreeAdd` and `BalancedBTreeRemove`, each with
any value of its `rebalance` flag, while its clients set the keys of items that are not on it.
Every run keeps the node graph a search tree of exactly the items added and not removed, and a run
that ends with a rebalancing call leaves a tree of minimal height.
-/

namespace HavokMud.BTree

open BinaryTree SearchTree

variable {ι κ τ : Type}

/-- A `keyCompare` callback that compares in a strict total order of the keys. -/
structure StrictTotal (keyCompare : κ → κ → ℤ) : Prop where
  eq_zero_iff : ∀ x y, keyCompare x y = 0 ↔ x = y
  neg_iff : ∀ x y, keyCompare x y < 0 ↔ 0 < keyCompare y x
  trans : ∀ x y z, keyCompare x y < 0 → keyCompare y z < 0 → keyCompare x z < 0

/-- A `keyCompare` callback that compares in a total order of the keys, where different keys may be
equal to it. -/
structure WeakOrder (keyCompare : κ → κ → ℤ) : Prop where
  neg_iff : ∀ x y, keyCompare x y < 0 ↔ 0 < keyCompare y x
  trans : ∀ x y z, keyCompare x y < 0 → keyCompare y z < 0 → keyCompare x z < 0
  equal : ∀ x y z, keyCompare x y = 0 → keyCompare y z < 0 → keyCompare x z < 0

theorem StrictTotal.weakOrder {keyCompare : κ → κ → ℤ} (hcmp : StrictTotal keyCompare) :
    WeakOrder keyCompare where
  neg_iff := hcmp.neg_iff
  trans := hcmp.trans
  equal x y z hxy hyz := by
    obtain rfl := (hcmp.eq_zero_iff x y).mp hxy
    exact hyz

/-! ## Walking the graph -/

/-- The two links a walk can take. -/
inductive Side where
  | left
  | right
deriving DecidableEq

/-- The pointer reached from a pointer along a path of child links. -/
def follow (h : Heap ι κ τ) : Option ι → List Side → Option ι
  | p, [] => p
  | none, _ :: _ => none
  | some a, .left :: path => follow h (h.left a) path
  | some a, .right :: path => follow h (h.right a) path

@[simp]
theorem follow_none (h : Heap ι κ τ) (path : List Side) : follow h none path = none := by
  cases path <;> rfl

theorem follow_mem {h : Heap ι κ τ} {parent p : Option ι} {t : BinaryTree ι}
    (hsub : Subtree h parent p t) {path : List Side} {n : ι} (hn : follow h p path = some n) :
    n ∈ inorder t := by
  induction t generalizing parent p path with
  | nil =>
      obtain rfl := subtree_nil.mp hsub
      simp at hn
  | node a l r ihl ihr =>
      obtain ⟨rfl, -, hl, hr⟩ := hsub
      rw [inorder_node, List.mem_append, List.mem_cons]
      match path with
      | [] => exact Or.inr (Or.inl (by simpa [follow] using hn.symm))
      | .left :: _ => exact Or.inl (ihl hl hn)
      | .right :: _ => exact Or.inr (Or.inr (ihr hr hn))

theorem exists_follow {h : Heap ι κ τ} {parent p : Option ι} {t : BinaryTree ι}
    (hsub : Subtree h parent p t) {n : ι} (hn : n ∈ inorder t) :
    ∃ path, follow h p path = some n := by
  induction t generalizing parent p with
  | nil => simp at hn
  | node a l r ihl ihr =>
      obtain ⟨rfl, -, hl, hr⟩ := hsub
      rw [inorder_node, List.mem_append, List.mem_cons] at hn
      rcases hn with hn | rfl | hn
      · obtain ⟨path, hpath⟩ := ihl hl hn
        exact ⟨.left :: path, hpath⟩
      · exact ⟨[], rfl⟩
      · obtain ⟨path, hpath⟩ := ihr hr hn
        exact ⟨.right :: path, hpath⟩

/-- Two paths to one record are the same path. -/
theorem follow_unique {h : Heap ι κ τ} {parent p : Option ι} {t : BinaryTree ι}
    (hsub : Subtree h parent p t) (hnodup : (inorder t).Nodup) {path path' : List Side} {n : ι}
    (hn : follow h p path = some n) (hn' : follow h p path' = some n) : path = path' := by
  induction t generalizing parent p path path' with
  | nil =>
      obtain rfl := subtree_nil.mp hsub
      simp at hn
  | node a l r ihl ihr =>
      obtain ⟨rfl, -, hl, hr⟩ := hsub
      simp only [inorder_node, List.nodup_append, List.nodup_cons, List.mem_cons] at hnodup
      obtain ⟨hndl, ⟨har, hndr⟩, hcross⟩ := hnodup
      have hal : a ∉ inorder l := fun hmem ↦ hcross a hmem a (Or.inl rfl) rfl
      have hlr : ∀ x ∈ inorder l, x ∉ inorder r := fun x hx hx' ↦ hcross x hx x (Or.inr hx') rfl
      match path, path' with
      | [], [] => rfl
      | [], .left :: _ =>
          obtain rfl : a = n := by simpa [follow] using hn
          exact absurd (follow_mem hl hn') hal
      | [], .right :: _ =>
          obtain rfl : a = n := by simpa [follow] using hn
          exact absurd (follow_mem hr hn') har
      | .left :: _, [] =>
          obtain rfl : a = n := by simpa [follow] using hn'
          exact absurd (follow_mem hl hn) hal
      | .right :: _, [] =>
          obtain rfl : a = n := by simpa [follow] using hn'
          exact absurd (follow_mem hr hn) har
      | .left :: _, .left :: _ => rw [ihl hl hndl hn hn']
      | .right :: _, .right :: _ => rw [ihr hr hndr hn hn']
      | .left :: _, .right :: _ => exact absurd (follow_mem hr hn') (hlr n (follow_mem hl hn))
      | .right :: _, .left :: _ => exact absurd (follow_mem hr hn) (hlr n (follow_mem hl hn'))

/-- What is reached below the two links of a record stands on its two sides in the order of the
tree. -/
theorem follow_sides {h : Heap ι κ τ} {parent p : Option ι} {t : BinaryTree ι}
    {rel : ι → ι → Prop} (hsub : Subtree h parent p t) (hrel : (inorder t).Pairwise rel) {n : ι}
    (hn : n ∈ inorder t) (path : List Side) (m : ι) :
    (follow h (h.left n) path = some m → rel m n) ∧
      (follow h (h.right n) path = some m → rel n m) := by
  induction t generalizing parent p with
  | nil => simp at hn
  | node a l r ihl ihr =>
      obtain ⟨rfl, -, hl, hr⟩ := hsub
      simp only [inorder_node, List.pairwise_append, List.pairwise_cons, List.mem_cons] at hrel
      obtain ⟨hrell, ⟨har, hrelr⟩, hcross⟩ := hrel
      rw [inorder_node, List.mem_append, List.mem_cons] at hn
      rcases hn with hn | rfl | hn
      · exact ihl hl hrell hn
      · exact ⟨fun hm ↦ hcross m (follow_mem hl hm) n (Or.inl rfl),
          fun hm ↦ har m (follow_mem hr hm)⟩
      · exact ihr hr hrelr hn

/-- The node graph of tree `btree` is a finite search tree of the given items. -/
structure WellFormed (keyCompare : κ → κ → ℤ) (h : Heap ι κ τ) (btree : τ) (items : List ι) :
    Prop where
  root_parent : ∀ r, h.root btree = some r → h.parent r = none
  parent_mem : ∀ m ∈ items, ∀ n, h.parent m = some n → n ∈ items
  links : ∀ n ∈ items, ∀ m, h.root btree ≠ some m → m ∈ items →
    ((h.left n = some m ∨ h.right n = some m) ↔ h.parent m = some n)
  once : ∀ path path' n, follow h (h.root btree) path = some n →
    follow h (h.root btree) path' = some n → path = path'
  left_lt : ∀ n ∈ items, ∀ path m, follow h (h.left n) path = some m →
    keyCompare (h.key m) (h.key n) < 0
  right_gt : ∀ n ∈ items, ∀ path m, follow h (h.right n) path = some m →
    keyCompare (h.key n) (h.key m) < 0
  reach : ∀ n, (∃ path, follow h (h.root btree) path = some n) ↔ n ∈ items

/-! ## The invariant -/

/-- The invariant of a run: the graph represents a search tree of the items, each of which names
its tree. -/
structure Holds (keyCompare : κ → κ → ℤ) (h : Heap ι κ τ) (btree : τ) (items : List ι)
    (t : BinaryTree ι) : Prop where
  represents : Represents h btree t
  perm : (inorder t).Perm items
  sorted : (inorder t).Pairwise fun a b ↦ keyCompare (h.key a) (h.key b) < 0
  owner : ∀ a ∈ inorder t, h.btree a = some btree

section Invariant

variable {keyCompare : κ → κ → ℤ} {h : Heap ι κ τ} {btree : τ} {items : List ι}
  {t : BinaryTree ι}

/-- In a sorted tree a search for any key cuts the sequence of items. -/
theorem WeakOrder.cut (horder : WeakOrder keyCompare) {xs : List ι}
    (hsorted : xs.Pairwise fun a b ↦ keyCompare (h.key a) (h.key b) < 0) (key : κ) :
    Cut (probe keyCompare h key) xs := by
  refine hsorted.imp ?_
  intro a b hab hle
  rcases lt_or_eq_of_le hle with hlt | heq
  · exact horder.trans key (h.key a) (h.key b) hlt hab
  · exact horder.equal key (h.key a) (h.key b) heq hab

/-- Hanging an item with a new key keeps the order. -/
theorem WeakOrder.sorted_insert (horder : WeakOrder keyCompare) {a : ι}
    (hsorted : (inorder t).Pairwise fun a b ↦ keyCompare (h.key a) (h.key b) < 0)
    (hfresh : ∀ b ∈ inorder t, keyCompare (h.key a) (h.key b) ≠ 0) :
    (inorder (SearchTree.insert (probe keyCompare h (h.key a)) a t)).Pairwise
      fun a b ↦ keyCompare (h.key a) (h.key b) < 0 := by
  refine pairwise_inorder_insert (horder.cut hsorted (h.key a)) hsorted ?_ ?_
  · intro b hb hge
    exact (horder.neg_iff _ _).mpr (lt_of_le_of_ne hge (hfresh b hb).symm)
  · exact fun b _ hneg ↦ hneg

theorem Holds.empty (keyCompare : κ → κ → ℤ) (hroot : h.root btree = none) :
    Holds keyCompare h btree [] .nil :=
  ⟨⟨hroot, List.nodup_nil⟩, List.Perm.refl _, List.Pairwise.nil, by simp⟩

theorem Holds.numNodes_eq (hinv : Holds keyCompare h btree items t) :
    t.numNodes = items.length := by
  rw [← length_inorder, hinv.perm.length_eq]

/-- The invariant survives edits of the links that leave keys and owners alone. -/
theorem Holds.rebalanced {h' : Heap ι κ τ} {rebalance : Bool} {records : List ι}
    (hinv : Holds keyCompare h btree items t) (hframe : Frame btree records h h')
    (hrep : Represents h' btree (rebalanced rebalance t)) :
    Holds keyCompare h' btree items (BTree.rebalanced rebalance t) where
  represents := hrep
  perm := by rw [inorder_rebalanced]; exact hinv.perm
  sorted := by rw [inorder_rebalanced, hframe.key]; exact hinv.sorted
  owner := by rw [inorder_rebalanced, hframe.owner]; exact hinv.owner

/-- The invariant in terms of the graph alone. -/
theorem Holds.wellFormed (hinv : Holds keyCompare h btree items t) :
    WellFormed keyCompare h btree items := by
  have hsub := hinv.represents.links
  have hnodup := hinv.represents.nodup
  have hmem : ∀ b, b ∈ inorder t ↔ b ∈ items := fun b ↦ hinv.perm.mem_iff
  refine ⟨?_, ?_, ?_, ?_, ?_, ?_, ?_⟩
  · intro r hr
    rw [hr] at hsub
    obtain ⟨l, r', rfl⟩ := hsub.some_node
    exact hsub.2.1
  · intro m hm n hn
    rcases hsub.parent_link ((hmem m).mpr hm) with ⟨-, hpar⟩ | ⟨q, hq, hpar, -⟩
    · rw [hpar] at hn
      exact absurd hn (by simp)
    · obtain rfl : q = n := by simpa [hpar] using hn
      exact (hmem q).mp hq
  · intro n hn m hroot hm
    constructor
    · exact fun hlink ↦ (hsub.child_link ((hmem n).mpr hn) hlink).2
    · intro hpar
      rcases hsub.parent_link ((hmem m).mpr hm) with ⟨hp, -⟩ | ⟨q, -, hpar', hlink⟩
      · exact absurd hp hroot
      · obtain rfl : q = n := by simpa [hpar'] using hpar
        exact hlink
  · exact fun path path' n hn hn' ↦ follow_unique hsub hnodup hn hn'
  · exact fun n hn path m ↦ (follow_sides hsub hinv.sorted ((hmem n).mpr hn) path m).1
  · exact fun n hn path m ↦ (follow_sides hsub hinv.sorted ((hmem n).mpr hn) path m).2
  · intro n
    rw [← hmem n]
    exact ⟨fun ⟨path, hpath⟩ ↦ follow_mem hsub hpath, exists_follow hsub⟩

/-- `BalancedBTreeFind` on a tree of a run. -/
theorem Holds.find (hcmp : StrictTotal keyCompare) (hinv : Holds keyCompare h btree items t)
    {fuel : ℕ} (hfuel : items.length ≤ fuel) (key : κ) :
    ∃ found, balancedBTreeFind keyCompare h fuel btree key = some found ∧
      ∀ n, found = some n ↔ n ∈ items ∧ h.key n = key := by
  have hsize : t.numNodes ≤ fuel := by rw [hinv.numNodes_eq]; exact hfuel
  refine ⟨_, balancedBTreeFind_eq hinv.represents hsize key, fun n ↦ ?_⟩
  rw [find_eq_some_iff (hcmp.weakOrder.cut hinv.sorted key), hinv.perm.mem_iff, probe,
    hcmp.eq_zero_iff, @eq_comm _ key]

end Invariant

/-! ## Edits -/

/-- One edit of a tree.  `assign` is a client that writes the key of an item. -/
inductive Op (ι κ : Type) where
  | add (item : Option ι) (rebalance : Bool)
  | remove (item : Option ι) (rebalance : Bool)
  | assign (item : ι) (key : κ)

namespace Op

/-- Does the edit end with a rebalancing of the whole tree? -/
def rebalances : Op ι κ → Bool
  | .add _ rebalance => rebalance
  | .remove _ rebalance => rebalance
  | .assign _ _ => false

variable [DecidableEq ι] [DecidableEq τ]

def run (keyCompare : κ → κ → ℤ) (fuel : ℕ) (btree : τ) : Op ι κ → Heap ι κ τ → Option (Heap ι κ τ)
  | .add item rebalance, h => balancedBTreeAdd keyCompare fuel h btree item rebalance
  | .remove item rebalance, h => balancedBTreeRemove fuel h btree item rebalance
  | .assign item key, h => some { h with key := Function.update h.key item key }

/-- The items on the tree after an edit. -/
def items : Op ι κ → List ι → List ι
  | .add (some a) _, items => a :: items
  | .remove (some a) _, items => items.erase a
  | _, items => items

def keys : Op ι κ → (ι → κ) → ι → κ
  | .assign item key, keys => Function.update keys item key
  | _, keys => keys

/-- What the clients of a tree promise: an item is added when it is off the tree and no item on it
has its key, removed when it is on the tree, and given a new key only while it is off the tree. -/
def Valid (items : List ι) (keys : ι → κ) : Op ι κ → Prop
  | .add (some a) _ => a ∉ items ∧ ∀ b ∈ items, keys b ≠ keys a
  | .remove (some a) _ => a ∈ items
  | .assign a _ => a ∉ items
  | _ => True

end Op

section Runs

variable [DecidableEq ι] [DecidableEq τ]

def runOps (keyCompare : κ → κ → ℤ) (fuel : ℕ) (btree : τ) :
    List (Op ι κ) → Heap ι κ τ → Option (Heap ι κ τ)
  | [], h => some h
  | op :: ops, h => do runOps keyCompare fuel btree ops (← op.run keyCompare fuel btree h)

/-- The items on the tree after a run. -/
def itemsAfter : List (Op ι κ) → List ι → List ι
  | [], items => items
  | op :: ops, items => itemsAfter ops (op.items items)

def keysAfter : List (Op ι κ) → (ι → κ) → ι → κ
  | [], keys => keys
  | op :: ops, keys => keysAfter ops (op.keys keys)

def ValidRun : List (Op ι κ) → List ι → (ι → κ) → Prop
  | [], _, _ => True
  | op :: ops, items, keys => op.Valid items keys ∧ ValidRun ops (op.items items) (op.keys keys)

variable {keyCompare : κ → κ → ℤ} {h : Heap ι κ τ} {btree : τ} {items : List ι}
  {t : BinaryTree ι}

/-- The tree an edit leaves behind. -/
def Op.tree (keyCompare : κ → κ → ℤ) (h : Heap ι κ τ) (t : BinaryTree ι) : Op ι κ → BinaryTree ι
  | .add (some a) rebalance =>
      BTree.rebalanced rebalance (SearchTree.insert (probe keyCompare h (h.key a)) a t)
  | .add none rebalance => BTree.rebalanced rebalance t
  | .remove (some a) rebalance => BTree.rebalanced rebalance (SearchTree.remove a t)
  | .remove none rebalance => BTree.rebalanced rebalance t
  | .assign _ _ => t

/-- Adding an item with a new key. -/
theorem Holds.add_fresh (horder : WeakOrder keyCompare) (hinv : Holds keyCompare h btree items t)
    {a : ι} (ha : a ∉ items) (hfresh : ∀ b ∈ items, keyCompare (h.key a) (h.key b) ≠ 0) {fuel : ℕ}
    (hfuel : items.length < fuel) (rebalance : Bool) :
    ∃ h', balancedBTreeAdd keyCompare fuel h btree (some a) rebalance = some h' ∧
      Frame btree (a :: inorder t) (h.setBtree a (some btree)) h' ∧
      Holds keyCompare h' btree (a :: items)
        (BTree.rebalanced rebalance (SearchTree.insert (probe keyCompare h (h.key a)) a t)) := by
  have hmem : ∀ b, b ∈ inorder t ↔ b ∈ items := fun b ↦ hinv.perm.mem_iff
  have hkey : ∀ b ∈ inorder t, keyCompare (h.key a) (h.key b) ≠ 0 := fun b hb ↦
    hfresh b ((hmem b).mp hb)
  have hsize : t.numNodes < fuel := by rw [hinv.numNodes_eq]; exact hfuel
  have hat : a ∉ inorder t := fun hmema ↦ ha ((hmem a).mp hmema)
  obtain ⟨h', hrun, hrep, hframe⟩ :=
    balancedBTreeAdd_spec hinv.represents hat hkey hsize rebalance
  refine ⟨h', hrun, hframe, hrep, ?_, ?_, ?_⟩
  · rw [inorder_rebalanced]
    exact (inorder_insert_perm _ a t).trans (hinv.perm.cons a)
  · rw [inorder_rebalanced, hframe.key]
    exact horder.sorted_insert hinv.sorted hkey
  · intro b hb
    rw [inorder_rebalanced, mem_inorder_insert] at hb
    rw [hframe.owner, Heap.btree_setBtree]
    by_cases hba : b = a
    · rw [if_pos hba]
    · rw [if_neg hba]
      exact hinv.owner b (hb.resolve_left hba)

theorem Holds.add (hcmp : StrictTotal keyCompare) (hinv : Holds keyCompare h btree items t)
    {a : ι} (ha : a ∉ items) (hfresh : ∀ b ∈ items, h.key b ≠ h.key a) {fuel : ℕ}
    (hfuel : items.length < fuel) (rebalance : Bool) :
    ∃ h', balancedBTreeAdd keyCompare fuel h btree (some a) rebalance = some h' ∧
      h'.key = h.key ∧ Holds keyCompare h' btree (a :: items)
        (BTree.rebalanced rebalance (SearchTree.insert (probe keyCompare h (h.key a)) a t)) := by
  have hkey : ∀ b ∈ items, keyCompare (h.key a) (h.key b) ≠ 0 := fun b hb hzero ↦
    hfresh b hb ((hcmp.eq_zero_iff _ _).mp hzero).symm
  obtain ⟨h', hrun, hframe, hinv'⟩ := hinv.add_fresh hcmp.weakOrder ha hkey hfuel rebalance
  exact ⟨h', hrun, hframe.key, hinv'⟩

/-- Removing an item of the tree. -/
theorem Holds.remove_item (hinv : Holds keyCompare h btree items t) {a : ι} (ha : a ∈ items)
    {fuel : ℕ} (hfuel : items.length ≤ fuel) (rebalance : Bool) :
    ∃ h', balancedBTreeRemove fuel h btree (some a) rebalance = some h' ∧
      Frame btree (inorder t) (h.setBtree a none) h' ∧
      Holds keyCompare h' btree (items.erase a)
        (BTree.rebalanced rebalance (SearchTree.remove a t)) := by
  have hat : a ∈ inorder t := hinv.perm.mem_iff.mpr ha
  have hsize : t.numNodes ≤ fuel := by rw [hinv.numNodes_eq]; exact hfuel
  have hnodup := hinv.represents.nodup
  obtain ⟨h', hrun, hrep, hframe⟩ :=
    balancedBTreeRemove_spec hinv.represents hat (hinv.owner a hat) hsize rebalance
  refine ⟨h', hrun, hframe, hrep, ?_, ?_, ?_⟩
  · rw [inorder_rebalanced, inorder_remove hnodup]
    exact hinv.perm.erase a
  · rw [inorder_rebalanced, hframe.key, inorder_remove hnodup]
    exact hinv.sorted.sublist List.erase_sublist
  · intro b hb
    rw [inorder_rebalanced, mem_inorder_remove hnodup] at hb
    rw [hframe.owner, Heap.btree_setBtree, if_neg hb.1]
    exact hinv.owner b hb.2

theorem Holds.remove (hinv : Holds keyCompare h btree items t) {a : ι} (ha : a ∈ items) {fuel : ℕ}
    (hfuel : items.length ≤ fuel) (rebalance : Bool) :
    ∃ h', balancedBTreeRemove fuel h btree (some a) rebalance = some h' ∧ h'.key = h.key ∧
      Holds keyCompare h' btree (items.erase a)
        (BTree.rebalanced rebalance (SearchTree.remove a t)) := by
  obtain ⟨h', hrun, hframe, hinv'⟩ := hinv.remove_item ha hfuel rebalance
  exact ⟨h', hrun, hframe.key, hinv'⟩

/-- A call without an item only rebalances. -/
theorem Holds.rebalance_only (hinv : Holds keyCompare h btree items t) {fuel : ℕ}
    (hfuel : items.length ≤ fuel) (rebalance : Bool) :
    ∃ h', (if rebalance then balancedBTreeRebalance btree fuel h (h.root btree) else some h) =
        some h' ∧ h'.key = h.key ∧
      Holds keyCompare h' btree items (BTree.rebalanced rebalance t) := by
  have hsize : t.numNodes ≤ fuel := by rw [hinv.numNodes_eq]; exact hfuel
  obtain ⟨h', hrun, hrep, hframe⟩ := rebalance_if_asked hinv.represents hsize rebalance
  exact ⟨h', hrun, hframe.key, hinv.rebalanced hframe hrep⟩

omit [DecidableEq τ] in
theorem Holds.assign (hinv : Holds keyCompare h btree items t) {a : ι} (ha : a ∉ items) (key : κ) :
    Holds keyCompare { h with key := Function.update h.key a key } btree items t := by
  have hne : ∀ b ∈ inorder t, b ≠ a := fun b hb heq ↦ ha (hinv.perm.mem_iff.mp (heq ▸ hb))
  refine ⟨⟨?_, hinv.represents.nodup⟩, hinv.perm, ?_, hinv.owner⟩
  · exact hinv.represents.links.congr (fun _ _ ↦ rfl) (fun _ _ ↦ rfl) (fun _ _ ↦ rfl)
  · refine hinv.sorted.imp_of_mem ?_
    intro b c hb hc hlt
    simpa [Function.update_of_ne (hne b hb), Function.update_of_ne (hne c hc)] using hlt

/-- One edit. -/
theorem Holds.run (hcmp : StrictTotal keyCompare) (hinv : Holds keyCompare h btree items t)
    {op : Op ι κ} (hvalid : op.Valid items h.key) {fuel : ℕ} (hfuel : items.length < fuel) :
    ∃ h', op.run keyCompare fuel btree h = some h' ∧ h'.key = op.keys h.key ∧
      Holds keyCompare h' btree (op.items items) (op.tree keyCompare h t) := by
  match op with
  | .add none rebalance => exact hinv.rebalance_only hfuel.le rebalance
  | .add (some a) rebalance => exact hinv.add hcmp hvalid.1 hvalid.2 hfuel rebalance
  | .remove none rebalance => exact hinv.rebalance_only hfuel.le rebalance
  | .remove (some a) rebalance => exact hinv.remove hvalid hfuel.le rebalance
  | .assign a key => exact ⟨_, rfl, rfl, hinv.assign hvalid key⟩

omit [DecidableEq τ] in
/-- A rebalancing edit leaves every node level. -/
theorem Op.balanced_tree {op : Op ι κ} (hop : op.rebalances = true) :
    Balanced (op.tree keyCompare h t) := by
  match op with
  | .add none true | .remove none true | .add (some _) true | .remove (some _) true =>
      exact balanced_balance _

theorem Op.length_items_le (op : Op ι κ) (items : List ι) :
    (op.items items).length ≤ items.length + 1 := by
  match op with
  | .add none _ | .remove none _ | .assign _ _ => exact Nat.le_succ _
  | .add (some a) _ => exact le_rfl
  | .remove (some a) _ => exact List.erase_sublist.length_le.trans (Nat.le_succ _)

/-- A whole run. -/
theorem Holds.runOps (hcmp : StrictTotal keyCompare) (hinv : Holds keyCompare h btree items t)
    {ops : List (Op ι κ)} (hvalid : ValidRun ops items h.key) {fuel : ℕ}
    (hfuel : items.length + ops.length ≤ fuel) :
    ∃ h' t', BTree.runOps keyCompare fuel btree ops h = some h' ∧ h'.key = keysAfter ops h.key ∧
      Holds keyCompare h' btree (itemsAfter ops items) t' ∧
      ∀ op ∈ ops.getLast?, op.rebalances = true → Balanced t' := by
  induction ops generalizing h items t with
  | nil => exact ⟨h, t, rfl, rfl, hinv, by simp⟩
  | cons op ops ih =>
      obtain ⟨hop, hops⟩ := hvalid
      rw [List.length_cons] at hfuel
      obtain ⟨h₁, hrun₁, hkey₁, hinv₁⟩ := hinv.run hcmp hop (by omega : items.length < fuel)
      have hlen := op.length_items_le items
      rw [← hkey₁] at hops
      obtain ⟨h', t', hrun', hkey', hinv', hlast'⟩ := ih hinv₁ hops (by omega)
      cases ops with
      | nil =>
          refine ⟨h₁, _, by simp [BTree.runOps, hrun₁], hkey₁, hinv₁, ?_⟩
          intro op' hop' hrebalances
          obtain rfl : op = op' := by simpa using hop'
          exact Op.balanced_tree hrebalances
      | cons next ops =>
          refine ⟨h', t', by simpa [BTree.runOps, hrun₁] using hrun', ?_, hinv', ?_⟩
          · rw [hkey', hkey₁]; rfl
          · simpa [List.getLast?_cons_cons] using hlast'

theorem length_itemsAfter_le (ops : List (Op ι κ)) (items : List ι) :
    (itemsAfter ops items).length ≤ items.length + ops.length := by
  induction ops generalizing items with
  | nil => exact le_rfl
  | cons op ops ih =>
      have hop := op.length_items_le items
      have hops := ih (op.items items)
      rw [itemsAfter, List.length_cons]
      omega

/-- Every valid run of edits from an empty tree ends, leaves a search tree of exactly the items
added and not removed, and makes `BalancedBTreeFind` find exactly those, each by its key. -/
theorem runOps_wellFormed (hcmp : StrictTotal keyCompare) (hempty : h.root btree = none)
    {ops : List (Op ι κ)} (hvalid : ValidRun ops [] h.key) {fuel : ℕ} (hfuel : ops.length ≤ fuel) :
    ∃ h', runOps keyCompare fuel btree ops h = some h' ∧ h'.key = keysAfter ops h.key ∧
      WellFormed keyCompare h' btree (itemsAfter ops []) ∧
      ∀ key, ∃ found, balancedBTreeFind keyCompare h' fuel btree key = some found ∧
        ∀ n, found = some n ↔ n ∈ itemsAfter ops [] ∧ h'.key n = key := by
  have hlen := length_itemsAfter_le ops ([] : List ι)
  rw [List.length_nil, Nat.zero_add] at hlen
  obtain ⟨h', t', hrun, hkey, hinv, -⟩ :=
    (Holds.empty keyCompare hempty).runOps hcmp hvalid (by simpa using hfuel)
  exact ⟨h', hrun, hkey, hinv.wellFormed, hinv.find hcmp (hlen.trans hfuel)⟩

/-- A heap of unlinked items whose keys are their numbers. -/
def numbered : Heap ℕ ℤ Unit :=
  ⟨fun _ ↦ none, fun _ ↦ none, fun _ ↦ none, fun a ↦ a, fun _ ↦ none, fun _ ↦ 0, fun _ ↦ none⟩

theorem strictTotal_sub : StrictTotal fun x y : ℤ ↦ x - y :=
  ⟨fun _ _ ↦ sub_eq_zero, fun _ _ ↦ by omega, fun _ _ _ _ _ ↦ by omega⟩

theorem runOps_wellFormed_three :
    ∃ h', runOps (fun x y : ℤ ↦ x - y) 3 ()
        [.add (some 2) false, .add (some 1) true, .remove (some 2) false] numbered = some h' ∧
      WellFormed (fun x y : ℤ ↦ x - y) h' () [1] := by
  have hvalid : ValidRun [.add (some 2) false, .add (some 1) true, .remove (some 2) false] []
      numbered.key := by
    simp [ValidRun, Op.Valid, Op.items, Op.keys, numbered]
  obtain ⟨h', hrun, -, hwf, -⟩ := runOps_wellFormed strictTotal_sub (rfl : numbered.root () = none)
    hvalid le_rfl
  exact ⟨h', hrun, hwf⟩

/-! ## Minimal height -/

omit [DecidableEq ι] [DecidableEq τ] in
/-- In a balanced tree the weights the source computes at any node differ by at most one. -/
theorem Subtree.weights_level {parent p : Option ι} (hsub : Subtree h parent p t)
    (hbalanced : Balanced t) {fuel : ℕ} (hfuel : t.numNodes ≤ fuel) {a : ι} (ha : a ∈ inorder t) :
    ∃ left right, balancedBTreeWeight h fuel (h.left a) = some left ∧
      balancedBTreeWeight h fuel (h.right a) = some right ∧ |(left : ℤ) - right| ≤ 1 := by
  induction t generalizing parent p with
  | nil => simp at ha
  | node b l r ihl ihr =>
      obtain ⟨rfl, -, hl, hr⟩ := hsub
      obtain ⟨⟨hlr, hrl⟩, hbl, hbr⟩ := hbalanced
      simp only [numNodes] at hfuel
      rw [inorder_node, List.mem_append, List.mem_cons] at ha
      rcases ha with ha | rfl | ha
      · exact ihl hl hbl (by omega) ha
      · refine ⟨_, _, balancedBTreeWeight_eq hl (by omega),
          balancedBTreeWeight_eq hr (by omega), ?_⟩
        rw [abs_le]
        constructor <;> omega
      · exact ihr hr hbr (by omega) ha

/-- `BalancedBTreeRebalance` ends on every finite tree, keeps the sequence of its items and makes
every node level, so that after every run whose last edit rebalances the tree is as low as a tree
of its items can be. -/
theorem balancedBTreeRebalance_minimal :
    (∀ (h : Heap ι κ τ) (btree : τ) (t : BinaryTree ι) (fuel : ℕ), Represents h btree t →
      t.numNodes ≤ fuel →
      ∃ h' t', balancedBTreeRebalance btree fuel h (h.root btree) = some h' ∧
        Represents h' btree t' ∧ inorder t' = inorder t ∧
        ∀ a ∈ inorder t', ∃ left right, balancedBTreeWeight h' fuel (h'.left a) = some left ∧
          balancedBTreeWeight h' fuel (h'.right a) = some right ∧ |(left : ℤ) - right| ≤ 1) ∧
    ∀ (keyCompare : κ → κ → ℤ) (h : Heap ι κ τ) (btree : τ) (ops : List (Op ι κ)) (fuel : ℕ),
      StrictTotal keyCompare → h.root btree = none → ValidRun ops [] h.key → ops.length ≤ fuel →
      (∃ op ∈ ops.getLast?, op.rebalances = true) →
      ∃ h' t', runOps keyCompare fuel btree ops h = some h' ∧ Represents h' btree t' ∧
        (inorder t').Perm (itemsAfter ops []) ∧
        t'.height = Nat.clog 2 ((itemsAfter ops []).length + 1) ∧
        ∀ s : BinaryTree ι, s.numNodes = (itemsAfter ops []).length → t'.height ≤ s.height := by
  constructor
  · intro h btree t fuel hrep hfuel
    obtain ⟨h', hrun, hrep', -⟩ := balancedBTreeRebalance_spec hrep hfuel
    refine ⟨h', balance t, hrun, hrep', inorder_balance t, ?_⟩
    have hsize : (balance t).numNodes ≤ fuel := by
      rw [← length_inorder, inorder_balance, length_inorder]
      exact hfuel
    exact fun a ha ↦ hrep'.links.weights_level (balanced_balance t) hsize ha
  · rintro keyCompare h btree ops fuel hcmp hempty hvalid hfuel ⟨op, hop, hrebalances⟩
    obtain ⟨h', t', hrun, -, hinv, hlast⟩ :=
      (Holds.empty keyCompare hempty).runOps hcmp hvalid (by simpa using hfuel)
    have hheight : t'.height = Nat.clog 2 ((itemsAfter ops []).length + 1) := by
      rw [(hlast op hop hrebalances).height_eq, hinv.numNodes_eq]
    refine ⟨h', t', hrun, hinv.represents, hinv.perm, hheight, fun s hs ↦ ?_⟩
    rw [hheight, ← hs]
    exact clog_le_height s

theorem balancedBTreeRebalance_minimal_three :
    ∃ h' t', runOps (fun x y : ℤ ↦ x - y) 3 ()
        [.add (some 1) false, .add (some 2) false, .add (some 3) true] numbered = some h' ∧
      Represents h' () t' ∧ t'.height = 2 := by
  have hvalid : ValidRun [.add (some 1) false, .add (some 2) false, .add (some 3) true] []
      numbered.key := by
    simp [ValidRun, Op.Valid, Op.items, Op.keys, numbered]
  obtain ⟨h', t', hrun, hrep, -, hheight, -⟩ := balancedBTreeRebalance_minimal.2
    (fun x y : ℤ ↦ x - y) numbered () [.add (some 1) false, .add (some 2) false, .add (some 3) true]
    3 strictTotal_sub rfl hvalid le_rfl ⟨.add (some 3) true, by simp, rfl⟩
  exact ⟨h', t', hrun, hrep, hheight.trans (by simp [itemsAfter, Op.items]; decide)⟩

end Runs

end HavokMud.BTree
