import HavokMud.SearchTree.Basic

/-!
# A subtree in its surroundings

A spine is a tree with one subtree taken out, recorded from the hole upwards.  Operations that
edit one place of a tree act on the subtree and leave the spine alone.
-/

namespace HavokMud.SearchTree

open BinaryTree
open scoped List

/-- The way from a hole up to the root, with the siblings passed on the way. -/
inductive Spine (α : Type*) where
  | top
  | left (a : α) (sibling : BinaryTree α) (up : Spine α)
  | right (a : α) (sibling : BinaryTree α) (up : Spine α)

namespace Spine

variable {α : Type*}

/-- Fill the hole. -/
def plug : Spine α → BinaryTree α → BinaryTree α
  | .top, t => t
  | .left a sibling up, t => up.plug (.node a t sibling)
  | .right a sibling up, t => up.plug (.node a sibling t)

/-- The elements outside the hole. -/
def elements : Spine α → List α
  | .top => []
  | .left a sibling up => a :: (inorder sibling ++ up.elements)
  | .right a sibling up => a :: (inorder sibling ++ up.elements)

theorem inorder_plug_perm (c : Spine α) (t : BinaryTree α) :
    inorder (c.plug t) ~ inorder t ++ c.elements := by
  induction c generalizing t with
  | top => simp [plug, elements]
  | left a sibling up ih =>
      calc
        inorder (up.plug (.node a t sibling)) ~
            inorder (BinaryTree.node a t sibling) ++ up.elements := ih _
        _ = inorder t ++ (a :: (inorder sibling ++ up.elements)) := by simp
  | right a sibling up ih =>
      calc
        inorder (up.plug (.node a sibling t)) ~
            inorder (BinaryTree.node a sibling t) ++ up.elements := ih _
        _ = inorder sibling ++ (a :: inorder t ++ up.elements) := by simp
        _ ~ (a :: inorder t ++ up.elements) ++ inorder sibling := List.perm_append_comm
        _ = a :: (inorder t ++ (up.elements ++ inorder sibling)) := by simp
        _ ~ inorder t ++ (a :: (up.elements ++ inorder sibling)) := List.perm_middle.symm
        _ ~ inorder t ++ (a :: (inorder sibling ++ up.elements)) :=
            (List.perm_append_comm.cons a).append_left _

theorem nodup_plug {c : Spine α} {t : BinaryTree α} :
    (inorder (c.plug t)).Nodup ↔ (inorder t ++ c.elements).Nodup :=
  (inorder_plug_perm c t).nodup_iff

theorem mem_plug {c : Spine α} {t : BinaryTree α} {x : α} :
    x ∈ inorder (c.plug t) ↔ x ∈ inorder t ∨ x ∈ c.elements := by
  rw [(inorder_plug_perm c t).mem_iff, List.mem_append]

theorem numNodes_le_plug (c : Spine α) (t : BinaryTree α) :
    t.numNodes ≤ (c.plug t).numNodes := by
  have h := (inorder_plug_perm c t).length_eq
  simp only [length_inorder, List.length_append] at h
  omega

/-- Every element is the root of the subtree in some hole. -/
theorem exists_plug {a : α} {t : BinaryTree α} (ha : a ∈ inorder t) (c : Spine α) :
    ∃ c' l r, c.plug t = Spine.plug c' (.node a l r) := by
  induction t generalizing c with
  | nil => simp at ha
  | node b l r ihl ihr =>
      rw [inorder_node, List.mem_append, List.mem_cons] at ha
      rcases ha with ha | rfl | ha
      · exact ihl ha (.left b r c)
      · exact ⟨c, l, r, rfl⟩
      · exact ihr ha (.right b l c)

variable [DecidableEq α]

/-- Removal acts inside the hole when the element is not outside it. -/
theorem remove_plug {a : α} {c : Spine α} (ha : a ∉ c.elements) (t : BinaryTree α) :
    remove a (c.plug t) = c.plug (remove a t) := by
  induction c generalizing t with
  | top => rfl
  | left b sibling up ih =>
      simp only [elements, List.mem_cons, List.mem_append, not_or] at ha
      obtain ⟨hb, hsibling, hup⟩ := ha
      rw [plug, ih hup, plug, remove, if_neg (Ne.symm hb), remove_of_notMem hsibling]
  | right b sibling up ih =>
      simp only [elements, List.mem_cons, List.mem_append, not_or] at ha
      obtain ⟨hb, hsibling, hup⟩ := ha
      rw [plug, ih hup, plug, remove, if_neg (Ne.symm hb), remove_of_notMem hsibling]

end Spine

end HavokMud.SearchTree
