import HavokMud.BTree.Representation

/-!
# What the reading functions compute

On a graph that represents a finite tree every search of `balanced_btree.c` ends, and it returns
what the corresponding search of the finite tree returns.
-/

namespace HavokMud.BTree

open BinaryTree SearchTree

variable {ι κ τ : Type}

/-- The probe of a search for `key`: the comparison with the key of the visited item. -/
def probe (keyCompare : κ → κ → ℤ) (h : Heap ι κ τ) (key : κ) (a : ι) : ℤ :=
  keyCompare key (h.key a)

theorem balancedBTreeWeight_eq {h : Heap ι κ τ} {parent p : Option ι} {t : BinaryTree ι}
    (hsub : Subtree h parent p t) {fuel : ℕ} (hfuel : t.numNodes ≤ fuel) :
    balancedBTreeWeight h fuel p = some t.numNodes := by
  induction t generalizing parent p fuel with
  | nil =>
      obtain rfl := subtree_nil.mp hsub
      cases fuel <;> rfl
  | node a l r ihl ihr =>
      obtain ⟨rfl, -, hl, hr⟩ := hsub
      simp only [numNodes] at hfuel ⊢
      cases fuel with
      | zero => omega
      | succ fuel =>
          simp only [balancedBTreeWeight, ihl hl (by omega : l.numNodes ≤ fuel),
            ihr hr (by omega : r.numNodes ≤ fuel), Option.bind_eq_bind, Option.bind_some]
          congr 1
          omega

theorem findGreatestLoop_eq {h : Heap ι κ τ} {parent p prev : Option ι} {t : BinaryTree ι}
    (hsub : Subtree h parent p t) {fuel : ℕ} (hfuel : t.numNodes ≤ fuel) :
    findGreatestLoop h fuel prev p = some (((popGreatest t).map Prod.fst).or prev) := by
  induction t generalizing parent p prev fuel with
  | nil =>
      obtain rfl := subtree_nil.mp hsub
      cases fuel <;> simp [findGreatestLoop, popGreatest]
  | node a l r _ ihr =>
      obtain ⟨rfl, -, -, hr⟩ := hsub
      simp only [numNodes] at hfuel
      cases fuel with
      | zero => omega
      | succ fuel =>
          rw [findGreatestLoop, ihr hr (by omega)]
          simp only [popGreatest]
          cases popGreatest r <;> simp

/-- Reading `left` for `right` and `right` for `left`. -/
def Heap.mirror (h : Heap ι κ τ) : Heap ι κ τ :=
  { h with left := h.right, right := h.left }

namespace Heap

@[simp] theorem left_mirror (h : Heap ι κ τ) : h.mirror.left = h.right := rfl
@[simp] theorem right_mirror (h : Heap ι κ τ) : h.mirror.right = h.left := rfl
@[simp] theorem parent_mirror (h : Heap ι κ τ) : h.mirror.parent = h.parent := rfl
@[simp] theorem mirror_mirror (h : Heap ι κ τ) : h.mirror.mirror = h := rfl

variable [DecidableEq ι] (h : Heap ι κ τ) (a : ι) (p : Option ι)

@[simp] theorem setLeft_mirror : h.mirror.setLeft a p = (h.setRight a p).mirror := rfl
@[simp] theorem setRight_mirror : h.mirror.setRight a p = (h.setLeft a p).mirror := rfl
@[simp] theorem setParent_mirror : h.mirror.setParent a p = (h.setParent a p).mirror := rfl

@[simp]
theorem setParentOf_mirror (c : Option ι) :
    h.mirror.setParentOf c p = (h.setParentOf c p).mirror := by
  cases c <;> rfl

end Heap

theorem Subtree.mirror {h : Heap ι κ τ} {parent p : Option ι} {t : BinaryTree ι}
    (hsub : Subtree h parent p t) : Subtree h.mirror parent p (SearchTree.mirror t) := by
  induction t generalizing parent p with
  | nil => exact hsub
  | node a l r ihl ihr =>
      obtain ⟨hp, hpar, hl, hr⟩ := hsub
      exact ⟨hp, hpar, ihr hr, ihl hl⟩

theorem findLeastLoop_mirror (h : Heap ι κ τ) (fuel : ℕ) (prev p : Option ι) :
    findLeastLoop h fuel prev p = findGreatestLoop h.mirror fuel prev p := by
  induction fuel generalizing prev p with
  | zero => cases p <;> rfl
  | succ fuel ih =>
      cases p with
      | none => rfl
      | some a => exact ih _ _

theorem balancedBTreeFindGreatest_eq {h : Heap ι κ τ} {parent p : Option ι} {t : BinaryTree ι}
    (hsub : Subtree h parent p t) {fuel : ℕ} (hfuel : t.numNodes ≤ fuel) :
    balancedBTreeFindGreatest h fuel p = some ((popGreatest t).map Prod.fst) := by
  rw [balancedBTreeFindGreatest, findGreatestLoop_eq hsub hfuel, Option.or_none]

theorem balancedBTreeFindLeast_eq {h : Heap ι κ τ} {parent p : Option ι} {t : BinaryTree ι}
    (hsub : Subtree h parent p t) {fuel : ℕ} (hfuel : t.numNodes ≤ fuel) :
    balancedBTreeFindLeast h fuel p = some ((popLeast t).map Prod.fst) := by
  have hsize : (SearchTree.mirror t).numNodes ≤ fuel := by
    rw [← length_inorder, inorder_mirror, List.length_reverse, length_inorder]
    exact hfuel
  rw [balancedBTreeFindLeast, findLeastLoop_mirror, findGreatestLoop_eq hsub.mirror hsize,
    popGreatest_mirror, Option.or_none, Option.map_map]
  rfl

theorem findLoop_eq {keyCompare : κ → κ → ℤ} {h : Heap ι κ τ} {key : κ} {parent p : Option ι}
    {t : BinaryTree ι} (hsub : Subtree h parent p t) {fuel : ℕ} (hfuel : t.numNodes ≤ fuel) :
    findLoop keyCompare h key fuel p = some (find (probe keyCompare h key) t) := by
  induction t generalizing parent p fuel with
  | nil =>
      obtain rfl := subtree_nil.mp hsub
      cases fuel <;> rfl
  | node a l r ihl ihr =>
      obtain ⟨rfl, -, hl, hr⟩ := hsub
      simp only [numNodes] at hfuel
      cases fuel with
      | zero => omega
      | succ fuel =>
          by_cases hzero : keyCompare key (h.key a) = 0
          · simp [findLoop, find, probe, hzero]
          · by_cases hneg : keyCompare key (h.key a) < 0
            · simpa [findLoop, find, probe, hzero, hneg] using ihl hl (by omega : l.numNodes ≤ fuel)
            · simpa [findLoop, find, probe, hzero, hneg] using ihr hr (by omega : r.numNodes ≤ fuel)

/-- `BalancedBTreeFind` ends and returns what the search of the finite tree returns. -/
theorem balancedBTreeFind_eq {keyCompare : κ → κ → ℤ} {h : Heap ι κ τ} {btree : τ}
    {t : BinaryTree ι} (hrep : Represents h btree t) {fuel : ℕ} (hfuel : t.numNodes ≤ fuel)
    (key : κ) :
    balancedBTreeFind keyCompare h fuel btree key = some (find (probe keyCompare h key) t) :=
  findLoop_eq hrep.links hfuel

/-- On which side of its parent a hole stands, by the sign of the probe at the parent. -/
def HoleSide (probe : ι → ℤ) : Spine ι → Prop
  | .top => True
  | .left a _ _ => probe a < 0
  | .right a _ _ => ¬ probe a < 0

/-- The descent of `BalancedBTreeFindParent` ends at the hole where the finite tree would hang a
new leaf. -/
theorem findParentLoop_eq {keyCompare : κ → κ → ℤ} {h : Heap ι κ τ} {key : κ} {btree : τ}
    {c : Spine ι} {parent p : Option ι} {t : BinaryTree ι}
    (hctx : Context h btree c parent p) (hsub : Subtree h parent p t)
    (hside : HoleSide (probe keyCompare h key) c) {fuel : ℕ} (hfuel : t.numNodes ≤ fuel) :
    ∃ c' parent', findParentLoop keyCompare h key fuel parent p = some parent' ∧
      Context h btree c' parent' none ∧ HoleSide (probe keyCompare h key) c' ∧
      c'.plug .nil = c.plug t ∧
      ∀ a, c'.plug (.node a .nil .nil) =
        c.plug (SearchTree.insert (probe keyCompare h key) a t) := by
  induction t generalizing c parent p fuel with
  | nil =>
      obtain rfl := subtree_nil.mp hsub
      exact ⟨c, parent, by cases fuel <;> rfl, hctx, hside, rfl, fun a ↦ rfl⟩
  | node b l r ihl ihr =>
      obtain ⟨rfl, rfl, hl, hr⟩ := hsub
      simp only [numNodes] at hfuel
      cases fuel with
      | zero => omega
      | succ fuel =>
          by_cases hneg : keyCompare key (h.key b) < 0
          · have hstep : Context h btree (.left b r c) (some b) (h.left b) :=
              ⟨rfl, rfl, hr, hctx⟩
            obtain ⟨c', parent', hrun, hctx', hside', hplug, hins⟩ :=
              ihl hstep hl hneg (by omega : l.numNodes ≤ fuel)
            refine ⟨c', parent', ?_, hctx', hside', hplug, ?_⟩
            · simpa [findParentLoop, hneg] using hrun
            · intro a
              rw [hins a]
              simp [SearchTree.insert, probe, hneg, Spine.plug]
          · have hstep : Context h btree (.right b l c) (some b) (h.right b) :=
              ⟨rfl, rfl, hl, hctx⟩
            obtain ⟨c', parent', hrun, hctx', hside', hplug, hins⟩ :=
              ihr hstep hr hneg (by omega : r.numNodes ≤ fuel)
            refine ⟨c', parent', ?_, hctx', hside', hplug, ?_⟩
            · simpa [findParentLoop, hneg] using hrun
            · intro a
              rw [hins a]
              simp [SearchTree.insert, probe, hneg, Spine.plug]

end HavokMud.BTree
