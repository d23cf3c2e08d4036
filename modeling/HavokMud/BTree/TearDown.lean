import HavokMud.BTree.Freeing

/-!
# Freeing a tree from its leaves

`BalancedBTreePrune` removes and frees every item after the items below it, so that each is a leaf
when its turn comes.  The relations below say what a part of a tear-down leaves alone and what it
has freed, and how two parts follow one another.
-/

namespace HavokMud.BTree.Freeing

open BinaryTree SearchTree

variable {ι κ τ ν σ : Type}

/-- The tree in the order in which its leaves fall, the left side first. -/
def postorder {α : Type} : BinaryTree α → List α
  | .nil => []
  | .node a l r => postorder l ++ (postorder r ++ [a])

theorem postorder_perm {α : Type} (t : BinaryTree α) : (postorder t).Perm (inorder t) := by
  induction t with
  | nil => exact .nil
  | node a l r ihl ihr =>
      exact ihl.append ((ihr.append_right [a]).trans (List.perm_append_comm))

theorem mem_postorder {α : Type} {t : BinaryTree α} {a : α} : a ∈ postorder t ↔ a ∈ inorder t :=
  (postorder_perm t).mem_iff

/-- What is below a place falls between what is before and what is after it. -/
theorem postorder_plug {α : Type} (c : Spine α) :
    ∃ before after, ∀ t, postorder (c.plug t) = before ++ (postorder t ++ after) := by
  induction c with
  | top => exact ⟨[], [], fun t ↦ by simp [Spine.plug]⟩
  | left a sibling up ih =>
      obtain ⟨before, after, h⟩ := ih
      refine ⟨before, postorder sibling ++ [a] ++ after, fun t ↦ ?_⟩
      simp [Spine.plug, h, postorder]
  | right a sibling up ih =>
      obtain ⟨before, after, h⟩ := ih
      refine ⟨before ++ postorder sibling, [a] ++ after, fun t ↦ ?_⟩
      simp [Spine.plug, h, postorder]

/-- An item that is on no tree and leads nowhere. -/
structure Removed (h : Heap ι κ τ) (a : ι) : Prop where
  left : h.left a = none
  right : h.right a = none
  parent : h.parent a = none
  btree : h.btree a = none

/-- A tree whose items all name it as theirs. -/
structure Owns (h : Heap ι κ τ) (tree : τ) (t : BinaryTree ι) : Prop where
  represents : Represents h tree t
  owner : ∀ a ∈ inorder t, h.btree a = some tree

/-- A tree with its items, none of which has been freed. -/
structure Stands (m : Memory ι κ τ ν σ) (tree : τ) (t : BinaryTree ι) : Prop
    extends Owns m.heap tree t where
  live : ∀ a ∈ inorder t, .item a ∉ m.freed
  treeLive : .tree tree ∉ m.freed

/-- The string at a key. -/
def Cell.text (name : κ → Option σ) : Cell ι κ τ ν → List σ
  | .key k => (name k).toList
  | _ => []

/-- From one memory to the other the allocations of `gone` have been freed, in this order and each
key with its string, and links and roots have been written in `changed` only. -/
structure TornDown (changed gone : List (Cell ι κ τ ν)) (m m' : Memory ι κ τ ν σ) : Prop where
  left : ∀ a, .item a ∉ changed → m'.heap.left a = m.heap.left a
  right : ∀ a, .item a ∉ changed → m'.heap.right a = m.heap.right a
  parent : ∀ a, .item a ∉ changed → m'.heap.parent a = m.heap.parent a
  btree : ∀ a, .item a ∉ changed → m'.heap.btree a = m.heap.btree a
  root : ∀ t, .tree t ∉ changed → m'.heap.root t = m.heap.root t
  key : m'.heap.key = m.heap.key
  contents : m'.contents = m.contents
  name : m'.name = m.name
  freed : m'.freed = m.freed ++ gone
  unlinked : m'.unlinked = m.unlinked ++ gone.flatMap (Cell.text m.name)
  removed : ∀ a, .item a ∈ gone → Removed m'.heap a

namespace TornDown

variable {changed changed' gone gone' : List (Cell ι κ τ ν)} {m m' m₁ : Memory ι κ τ ν σ}

theorem refl (changed : List (Cell ι κ τ ν)) (m : Memory ι κ τ ν σ) : TornDown changed [] m m where
  left _ _ := rfl
  right _ _ := rfl
  parent _ _ := rfl
  btree _ _ := rfl
  root _ _ := rfl
  key := rfl
  contents := rfl
  name := rfl
  freed := (List.append_nil _).symm
  unlinked := (List.append_nil _).symm
  removed _ ha := absurd ha List.not_mem_nil

theorem mono (h : TornDown changed gone m m') (hsub : changed ⊆ changed') :
    TornDown changed' gone m m' where
  left a ha := h.left a fun hmem ↦ ha (hsub hmem)
  right a ha := h.right a fun hmem ↦ ha (hsub hmem)
  parent a ha := h.parent a fun hmem ↦ ha (hsub hmem)
  btree a ha := h.btree a fun hmem ↦ ha (hsub hmem)
  root t ht := h.root t fun hmem ↦ ht (hsub hmem)
  key := h.key
  contents := h.contents
  name := h.name
  freed := h.freed
  unlinked := h.unlinked
  removed := h.removed

/-- One part after the other, where the second writes nothing that the first has freed. -/
theorem trans (h : TornDown changed gone m m₁) (h' : TornDown changed' gone' m₁ m')
    (hapart : ∀ a, .item a ∈ gone → .item a ∉ changed') :
    TornDown (changed ++ changed') (gone ++ gone') m m' where
  left a ha := by
    simp only [List.mem_append, not_or] at ha
    exact (h'.left a ha.2).trans (h.left a ha.1)
  right a ha := by
    simp only [List.mem_append, not_or] at ha
    exact (h'.right a ha.2).trans (h.right a ha.1)
  parent a ha := by
    simp only [List.mem_append, not_or] at ha
    exact (h'.parent a ha.2).trans (h.parent a ha.1)
  btree a ha := by
    simp only [List.mem_append, not_or] at ha
    exact (h'.btree a ha.2).trans (h.btree a ha.1)
  root t ht := by
    simp only [List.mem_append, not_or] at ht
    exact (h'.root t ht.2).trans (h.root t ht.1)
  key := h'.key.trans h.key
  contents := h'.contents.trans h.contents
  name := h'.name.trans h.name
  freed := by rw [h'.freed, h.freed, List.append_assoc]
  unlinked := by rw [h'.unlinked, h.unlinked, h.name, List.append_assoc, List.flatMap_append]
  removed a ha := by
    rcases List.mem_append.mp ha with ha | ha
    · have hr := h.removed a ha
      have hout := hapart a ha
      exact ⟨(h'.left a hout).trans hr.left, (h'.right a hout).trans hr.right,
        (h'.parent a hout).trans hr.parent, (h'.btree a hout).trans hr.btree⟩
    · exact h'.removed a ha

end TornDown

/-- A tree that a part of a tear-down does not touch stands as before. -/
theorem Stands.torn {m m' : Memory ι κ τ ν σ} {tree : τ} {t : BinaryTree ι}
    {changed gone : List (Cell ι κ τ ν)} (h : Stands m tree t) (htorn : TornDown changed gone m m')
    (hitems : ∀ a ∈ inorder t, .item a ∉ changed ∧ .item a ∉ gone)
    (htree : .tree tree ∉ changed ∧ .tree tree ∉ gone) : Stands m' tree t where
  represents := by
    refine ⟨?_, h.represents.nodup⟩
    rw [htorn.root tree htree.1]
    exact h.represents.links.congr (fun a ha ↦ htorn.left a (hitems a ha).1)
      (fun a ha ↦ htorn.right a (hitems a ha).1) (fun a ha ↦ htorn.parent a (hitems a ha).1)
  owner a ha := (htorn.btree a (hitems a ha).1).trans (h.owner a ha)
  live a ha := by
    rw [htorn.freed, List.mem_append, not_or]
    exact ⟨h.live a ha, (hitems a ha).2⟩
  treeLive := by
    rw [htorn.freed, List.mem_append, not_or]
    exact ⟨h.treeLive, htree.2⟩

/-- What is freed on its own, off all trees and not a key. -/
theorem TornDown.memfree {m : Memory ι κ τ ν σ} {c : Cell ι κ τ ν} (hc : c.text m.name = [])
    (hremoved : ∀ a, c = .item a → Removed m.heap a) :
    TornDown [] [c] m { m with freed := m.freed ++ [c] } where
  left _ _ := rfl
  right _ _ := rfl
  parent _ _ := rfl
  btree _ _ := rfl
  root _ _ := rfl
  key := rfl
  contents := rfl
  name := rfl
  freed := rfl
  unlinked := by simp [hc]
  removed a ha := hremoved a (List.mem_singleton.mp ha).symm

/-- The root of an empty tree is NULL. -/
theorem Stands.root_eq_none {m : Memory ι κ τ ν σ} {tree : τ} (h : Stands m tree .nil) :
    m.heap.root tree = none :=
  h.represents.links

section Leaf

variable [DecidableEq ι] [DecidableEq τ] {h h₁ : Heap ι κ τ} {tree : τ} {x : ι}

end Leaf

variable [DecidableEq ι] [DecidableEq κ] [DecidableEq τ] [DecidableEq ν]

/-- `BalancedBTreeDestroy` of an empty tree frees the tree. -/
theorem destroy_empty {tree : τ} {m : Memory ι κ τ ν σ} (fuel : ℕ) (h : Stands m tree .nil) :
    ∃ m', balancedBTreeDestroy fuel tree m = some ((), m') ∧ TornDown [] [.tree tree] m m' := by
  refine ⟨_, ?_, TornDown.memfree rfl nofun⟩
  have hprune : (balancedBTreePrune fuel none : Run ι κ τ ν σ Unit) = pure () := by
    cases fuel <;> rfl
  rw [balancedBTreeDestroy, bind_of_some (root_eq_some.mpr ⟨h.treeLive, rfl, rfl⟩),
    h.root_eq_none, hprune, pure_bind, bind_of_some (touch_eq_some (u := ()).mpr ⟨h.treeLive, rfl⟩)]
  exact memfree_eq_some.mpr ⟨h.treeLive, rfl⟩

end HavokMud.BTree.Freeing
