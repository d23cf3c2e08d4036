import HavokMud.Sequence.Largest
import Mathlib.Data.List.Sort
import Mathlib.Algebra.Order.Ring.Int
import Mathlib.Algebra.Order.BigOperators.Ring.List

/-!
# Dice

`dice` rolls, sorts with `qsort` and adds up the first of the sorted dice.  The dice are numbered in
the order in which they are rolled, and `random ()` is the sequence of its outcomes.
-/

namespace HavokMud.Dice

open Sequence

/-- A value as an `int`. -/
def int (x : ℤ) : ℤ :=
  Int.bmod x (2 ^ 32)

theorem int_eq {x : ℤ} (hlow : -2 ^ 31 ≤ x) (hhigh : x < 2 ^ 31) : int x = x := by
  apply Int.bmod_eq_of_le <;> omega

/-- `dieSortDesc`, of the values pointed to. -/
def dieSortDesc (l r : ℤ) : ℤ :=
  int (r - l)

/-- `qsort` in the order of a comparison function.  The standard library leaves open in which order
it puts equal members. -/
def qsort (compar : ℤ → ℤ → ℤ) (base : List ℤ) : List ℤ :=
  base.insertionSort fun l r ↦ compar l r ≤ 0

/-- The value of one die.  `random ()` is a `long` and so is the remainder. -/
def roll (size : ℤ) (outcome : Fin (2 ^ 31)) : ℤ :=
  int ((outcome.val : ℤ).tmod size + 1)

/-- The array that `CREATEN` allocates, after the loop that rolls. -/
def rolled (random : ℕ → Fin (2 ^ 31)) (number size : ℤ) : List ℤ :=
  (List.range number.toNat).map fun i ↦ roll size (random i)

/-- What a player is told. -/
def announced (number size top : ℤ) (rolls kept : List ℤ) (sum : ℤ) : List String :=
  ["Rolling " ++ toString number ++ "d" ++ toString size ++ ", keeping top " ++ toString top ++
      " dice\n\r", "Rolled: "] ++
    (rolls.map fun die ↦ toString die ++ " ") ++ ["  Kept: "] ++
    (kept.map fun die ↦ toString die ++ " ") ++ ["  Total: " ++ toString sum ++ "\n\r\n\r"]

section Sorted

variable {size : ℤ} {random : ℕ → Fin (2 ^ 31)} {rolls : List ℤ}

/-- The comparison of values whose difference is an `int`. -/
theorem dieSortDesc_le_zero_iff {l r : ℤ} (hl : 1 ≤ l) (hl' : l < 2 ^ 31) (hr : 1 ≤ r)
    (hr' : r < 2 ^ 31) : dieSortDesc l r ≤ 0 ↔ r ≤ l := by
  rw [dieSortDesc, int_eq (by omega) (by omega)]
  omega

/-- The dice are values that the comparison puts in order. -/
def Rolls (rolls : List ℤ) : Prop :=
  ∀ die ∈ rolls, 1 ≤ die ∧ die < 2 ^ 31

theorem qsort_perm (compar : ℤ → ℤ → ℤ) (rolls : List ℤ) : (qsort compar rolls).Perm rolls :=
  List.perm_insertionSort _ rolls

/-- The sort puts the larger dice first. -/
theorem pairwise_qsort (hrolls : Rolls rolls) :
    (qsort dieSortDesc rolls).Pairwise (· ≥ ·) := by
  have hcompar : ∀ l ∈ rolls, ∀ r ∈ rolls, dieSortDesc l r ≤ 0 ↔ l ≥ r := by
    intro l hl r hr
    exact dieSortDesc_le_zero_iff (hrolls l hl).1 (hrolls l hl).2 (hrolls r hr).1 (hrolls r hr).2
  have hsame : qsort dieSortDesc rolls = rolls.insertionSort (· ≥ ·) := by
    have hmap := List.map_insertionSort (fun l r ↦ dieSortDesc l r ≤ 0) (· ≥ ·) id rolls hcompar
    rwa [List.map_id, List.map_id] at hmap
  rw [hsame]
  exact List.pairwise_insertionSort (· ≥ ·) rolls

/-- Equal dice cannot be told apart, and so any sort gives the same. -/
theorem eq_qsort (hrolls : Rolls rolls) {sorted : List ℤ} (hperm : sorted.Perm rolls)
    (hsorted : sorted.Pairwise fun l r ↦ dieSortDesc l r ≤ 0) :
    sorted = qsort dieSortDesc rolls := by
  have hdescending : sorted.Pairwise (· ≥ ·) := by
    apply hsorted.imp_of_mem
    intro l r hl hr hle
    have hdice (die : ℤ) (hdie : die ∈ sorted) := hrolls die (hperm.subset hdie)
    exact (dieSortDesc_le_zero_iff (hdice l hl).1 (hdice l hl).2 (hdice r hr).1
      (hdice r hr).2).mp hle
  exact (hperm.trans (qsort_perm _ _).symm).eq_of_pairwise' hdescending (pairwise_qsort hrolls)

end Sorted

/-! ## The dice that are kept -/

section Kept

variable {number size top : ℤ} {random : ℕ → Fin (2 ^ 31)}

/-- The dice that are kept: the first of the sorted ones. -/
def kept (random : ℕ → Fin (2 ^ 31)) (number size top : ℤ) : List ℤ :=
  (qsort dieSortDesc (rolled random number size)).take (min top number).toNat

end Kept

end HavokMud.Dice
