import Mathlib.Data.List.Basic
import Mathlib.Data.List.Nodup

/-!
# Chains of links

A chain follows one link of each of its elements and ends with a NULL link.  A list that is linked
both ways is a chain, and its reverse is one.
-/

namespace HavokMud.LinkedList

variable {ι : Type} {next next' : ι → Option ι} {p : Option ι} {xs ys : List ι} {x y : ι}

/-- The elements from a pointer on. -/
def Linked (next : ι → Option ι) : Option ι → List ι → Prop
  | p, [] => p = none
  | p, x :: xs => p = some x ∧ Linked next (next x) xs

/-- What the links from a pointer on lead to. -/
inductive Reached (next : ι → Option ι) : Option ι → ι → Prop
  | here (x : ι) : Reached next (some x) x
  | there {x y : ι} : Reached next (next y) x → Reached next (some y) x

@[simp]
theorem linked_nil : Linked next p [] ↔ p = none := Iff.rfl

theorem linked_cons : Linked next p (x :: xs) ↔ p = some x ∧ Linked next (next x) xs := Iff.rfl

namespace Linked

theorem head_eq (h : Linked next p xs) : p = xs.head? := by
  cases xs with
  | nil => exact h
  | cons x xs => exact h.1

theorem congr (h : Linked next p xs) (hsame : ∀ x ∈ xs, next' x = next x) : Linked next' p xs := by
  induction xs generalizing p with
  | nil => exact h
  | cons x xs ih =>
      refine ⟨h.1, ?_⟩
      rw [hsame x List.mem_cons_self]
      exact ih h.2 fun y hy ↦ hsame y (List.mem_cons_of_mem x hy)

theorem unique (h : Linked next p xs) (h' : Linked next p ys) : xs = ys := by
  induction xs generalizing p ys with
  | nil =>
      cases ys with
      | nil => rfl
      | cons y ys => cases (linked_nil.mp h).symm.trans h'.1
  | cons x xs ih =>
      cases ys with
      | nil => cases (linked_nil.mp h').symm.trans h.1
      | cons y ys =>
          obtain rfl := Option.some.inj (h.1.symm.trans h'.1)
          rw [ih h.2 h'.2]

/-- The links stay in the chain. -/
theorem mem_of_next (h : Linked next p xs) (hx : x ∈ xs) (hy : next x = some y) : y ∈ xs := by
  induction xs generalizing p with
  | nil => cases hx
  | cons z xs ih =>
      rcases List.mem_cons.mp hx with rfl | hx
      · have hhead := h.2.head_eq
        rw [hy] at hhead
        exact List.mem_cons_of_mem _ (List.mem_of_mem_head? hhead.symm)
      · exact List.mem_cons_of_mem _ (ih h.2 hx)

theorem next_eq (h : Linked next p (xs ++ x :: ys)) : next x = ys.head? := by
  induction xs generalizing p with
  | nil => exact h.2.head_eq
  | cons y xs ih => exact ih h.2

/-- Only the last link is NULL. -/
theorem next_eq_none_iff (h : Linked next p xs) (hnodup : xs.Nodup) (hx : x ∈ xs) :
    next x = none ↔ xs.getLast? = some x := by
  obtain ⟨before, after, rfl⟩ := List.append_of_mem hx
  rw [h.next_eq]
  cases after with
  | nil => simp
  | cons y after =>
      have hlast : (before ++ x :: y :: after).getLast? = (y :: after).getLast? := by
        rw [List.getLast?_append_of_ne_nil _ (List.cons_ne_nil x _), List.getLast?_cons_cons]
      rw [hlast]
      refine iff_of_false (by simp) ?_
      intro heq
      have hmem := List.mem_of_getLast? heq
      rw [List.nodup_append, List.nodup_cons] at hnodup
      exact hnodup.2.1.1 hmem

/-- A new last element. -/
theorem concat (h : Linked next p xs) (hx : next' x = none)
    (hnext : ∀ y ∈ xs, next' y = if next y = none then some x else next y) :
    Linked next' (if p = none then some x else p) (xs ++ [x]) := by
  induction xs generalizing p with
  | nil =>
      rw [linked_nil.mp h]
      exact ⟨rfl, hx⟩
  | cons y xs ih =>
      obtain ⟨rfl, h⟩ := h
      refine ⟨rfl, ?_⟩
      rw [hnext y List.mem_cons_self]
      exact ih h fun z hz ↦ hnext z (List.mem_cons_of_mem y hz)

/-- An element is unlinked: what pointed to it points behind it. -/
theorem erase [DecidableEq ι] (h : Linked next p xs) (hnodup : xs.Nodup) (hx : x ∈ xs)
    (hnext : ∀ y ∈ xs, y ≠ x → next' y = if next y = some x then next x else next y) :
    Linked next' (if p = some x then next x else p) (xs.erase x) := by
  induction xs generalizing p with
  | nil => cases hx
  | cons y xs ih =>
      obtain ⟨rfl, h⟩ := h
      obtain ⟨hy, hnodup⟩ := List.nodup_cons.mp hnodup
      by_cases hyx : y = x
      · subst hyx
        rw [if_pos rfl, List.erase_cons_head]
        refine h.congr fun z hz ↦ ?_
        have hzy : z ≠ y := by
          rintro rfl
          exact hy hz
        rw [hnext z (List.mem_cons_of_mem y hz) hzy, if_neg]
        intro heq
        exact hy (h.mem_of_next hz heq)
      · have hx' : x ∈ xs := List.mem_of_ne_of_mem (Ne.symm hyx) hx
        rw [if_neg (by simpa using hyx), List.erase_cons_tail (by simpa using hyx)]
        refine ⟨rfl, ?_⟩
        rw [hnext y List.mem_cons_self hyx]
        exact ih h hnodup hx' fun z hz ↦ hnext z (List.mem_cons_of_mem y hz)

/-- An element is bypassed: the element before it points behind it. -/
theorem bypass [DecidableEq ι] (h : Linked next p (xs ++ y :: x :: ys))
    (hnodup : (xs ++ y :: x :: ys).Nodup) :
    Linked (Function.update next y (next x)) p (xs ++ y :: ys) := by
  induction xs generalizing p with
  | nil =>
      obtain ⟨hp, -, hrest⟩ := h
      refine ⟨hp, ?_⟩
      rw [Function.update_self]
      refine hrest.congr fun z hz ↦ Function.update_of_ne ?_ _ _
      rintro rfl
      exact (List.nodup_cons.mp hnodup).1 (List.mem_cons_of_mem x hz)
  | cons z xs ih =>
      obtain ⟨hz, hnodup⟩ := List.nodup_cons.mp hnodup
      refine ⟨h.1, ?_⟩
      have hzy : z ≠ y := by
        rintro rfl
        simp at hz
      rw [Function.update_of_ne hzy]
      exact ih h.2 hnodup

end Linked

theorem Linked.prev_eq {prev : ι → Option ι} {q : Option ι} (h : Linked next p xs)
    (hback : Linked prev q xs.reverse) (hy : y ∈ xs) (hnext : next y = some x) :
    prev x = some y := by
  obtain ⟨before, after, rfl⟩ := List.append_of_mem hy
  rw [h.next_eq] at hnext
  obtain ⟨after, rfl⟩ := List.head?_eq_some_iff.mp hnext
  have hsplit : (before ++ y :: x :: after).reverse =
      after.reverse ++ x :: (y :: before.reverse) := by
    simp
  rw [hsplit] at hback
  exact hback.next_eq

/-- Who comes next has this one before it. -/
theorem Linked.next_eq_some_iff {prev : ι → Option ι} {q : Option ι} (h : Linked next p xs)
    (hback : Linked prev q xs.reverse) (hx : x ∈ xs) (hy : y ∈ xs) :
    next y = some x ↔ prev x = some y := by
  rw [← List.reverse_reverse xs] at h
  rw [← List.mem_reverse] at hx
  refine ⟨fun hnext ↦ ?_, hback.prev_eq h hx⟩
  rw [List.reverse_reverse] at h
  exact h.prev_eq hback hy hnext

end HavokMud.LinkedList
