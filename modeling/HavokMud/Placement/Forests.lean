import HavokMud.Placement.Nesting
import Mathlib.Algebra.Ring.Int.Defs

/-!
# The trees of objects in objects

What is in an object is a tree: the objects of its list, each with what is in it.  In a sound world
every object has such a tree, which holds each object that is inside it once.
-/

namespace HavokMud.Placement

open Interaction Locking LinkedList

/-- The objects of a list, each with what is in it. -/
inductive Forest where
  | nil
  | cons (obj : Obj) (contents rest : Forest)

namespace Forest

/-- The objects of the list itself. -/
def roots : Forest → List Obj
  | .nil => []
  | .cons obj _ rest => obj :: rest.roots

/-- All objects in pre-order. -/
def objects : Forest → List Obj
  | .nil => []
  | .cons obj contents rest => obj :: (contents.objects ++ rest.objects)

/-- All objects, each behind what is in it. -/
def postorder : Forest → List Obj
  | .nil => []
  | .cons obj contents rest => contents.postorder ++ obj :: rest.postorder

/-- All objects in pre-order, each with those that it is in, from the innermost on. -/
def entries (above : List Obj) : Forest → List (Obj × List Obj)
  | .nil => []
  | .cons obj contents rest =>
      (obj, above) :: (contents.entries (obj :: above) ++ rest.entries above)

/-- What holds of each object and the objects of its list. -/
def Each (P : Obj → List Obj → Prop) : Forest → Prop
  | .nil => True
  | .cons obj contents rest => P obj contents.roots ∧ contents.Each P ∧ rest.Each P

variable {f : Forest} {obj : Obj} {P Q : Obj → List Obj → Prop}

theorem Each.imp (h : f.Each P) (hPQ : ∀ o ∈ f.objects, ∀ xs, P o xs → Q o xs) : f.Each Q := by
  induction f with
  | nil => trivial
  | cons o contents rest ihContents ihRest =>
      simp only [objects, List.mem_cons, List.mem_append] at hPQ
      exact ⟨hPQ o (.inl rfl) _ h.1,
        ihContents h.2.1 fun o ho ↦ hPQ o (.inr (.inl ho)),
        ihRest h.2.2 fun o ho ↦ hPQ o (.inr (.inr ho))⟩

theorem postorder_perm (f : Forest) : f.postorder.Perm f.objects := by
  induction f with
  | nil => exact .refl _
  | cons o contents rest ihContents ihRest =>
      refine List.perm_middle.trans (.cons o ?_)
      exact ihContents.append ihRest

end Forest

variable {w : World} {l : Layout} {obj : Obj}

/-! ## Loops -/

end HavokMud.Placement
