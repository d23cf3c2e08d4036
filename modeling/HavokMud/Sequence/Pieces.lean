import Mathlib.Data.List.Basic

/-!
# Pieces of a sequence

A sequence is cut at every separator into finished pieces and the unfinished rest behind the last
separator.
-/

namespace HavokMud.Sequence

section Pieces

variable {α : Type} [DecidableEq α]

/-- The finished pieces, without their separators, and the rest. -/
def cut (sep : α) : List α → List (List α) × List α
  | [] => ([], [])
  | x :: xs =>
      if x = sep then ([] :: (cut sep xs).1, (cut sep xs).2)
      else
        match (cut sep xs).1 with
        | [] => ([], x :: (cut sep xs).2)
        | piece :: pieces => ((x :: piece) :: pieces, (cut sep xs).2)

variable {sep : α}

theorem cut_sep (xs : List α) : cut sep (sep :: xs) = ([] :: (cut sep xs).1, (cut sep xs).2) :=
  if_pos rfl

/-- A beginning without a separator belongs to the first piece. -/
theorem cut_append_of_not_mem {xs : List α} (hxs : sep ∉ xs) (ys : List α) : cut sep (xs ++ ys) =
    match (cut sep ys).1 with
    | [] => ([], xs ++ (cut sep ys).2)
    | piece :: pieces => ((xs ++ piece) :: pieces, (cut sep ys).2) := by
  induction xs with
  | nil =>
      cases hys : cut sep ys with
      | mk pieces rest => cases pieces <;> simp [hys]
  | cons x xs ih =>
      have hx : x ≠ sep := fun heq ↦ hxs (heq ▸ List.mem_cons_self)
      have hrest := ih fun hmem ↦ hxs (List.mem_cons_of_mem _ hmem)
      rw [List.cons_append, cut, if_neg hx, hrest]
      cases (cut sep ys).1 <;> rfl

theorem cut_of_not_mem {xs : List α} (hxs : sep ∉ xs) : cut sep xs = ([], xs) := by
  have happend := cut_append_of_not_mem hxs []
  rw [List.append_nil] at happend
  rw [happend]
  exact congrArg (Prod.mk []) (List.append_nil xs)

/-- Everything is in the pieces or in the rest. -/
theorem join_cut (xs : List α) :
    ((cut sep xs).1.flatMap fun piece ↦ piece ++ [sep]) ++ (cut sep xs).2 = xs := by
  induction xs with
  | nil => rfl
  | cons x xs ih =>
      by_cases hx : x = sep
      · subst hx
        rw [cut_sep]
        exact congrArg (x :: ·) ih
      · rw [cut, if_neg hx]
        cases hcut : (cut sep xs).1 with
        | nil =>
            rw [hcut] at ih
            exact congrArg (x :: ·) ih
        | cons piece pieces =>
            rw [hcut] at ih
            exact congrArg (x :: ·) ih

theorem not_mem_cut (xs : List α) :
    (∀ piece ∈ (cut sep xs).1, sep ∉ piece) ∧ sep ∉ (cut sep xs).2 := by
  induction xs with
  | nil => exact ⟨List.forall_mem_nil _, List.not_mem_nil⟩
  | cons x xs ih =>
      by_cases hx : x = sep
      · subst hx
        rw [cut_sep]
        exact ⟨List.forall_mem_cons.mpr ⟨List.not_mem_nil, ih.1⟩, ih.2⟩
      · have hcons : ∀ piece, sep ∉ piece → sep ∉ x :: piece := fun piece hpiece ↦
          List.not_mem_cons_of_ne_of_not_mem (Ne.symm hx) hpiece
        rw [cut, if_neg hx]
        cases hcut : (cut sep xs).1 with
        | nil => exact ⟨List.forall_mem_nil _, hcons _ ih.2⟩
        | cons piece pieces =>
            rw [hcut, List.forall_mem_cons] at ih
            exact ⟨List.forall_mem_cons.mpr ⟨hcons _ ih.1.1, ih.1.2⟩, ih.2⟩

/-- The pieces of two sequences, one behind the other. -/
theorem cut_append (xs ys : List α) : cut sep (xs ++ ys) =
    ((cut sep xs).1 ++ (cut sep ((cut sep xs).2 ++ ys)).1, (cut sep ((cut sep xs).2 ++ ys)).2) := by
  induction xs with
  | nil => rfl
  | cons x xs ih =>
      by_cases hx : x = sep
      · subst hx
        rw [List.cons_append, cut_sep, cut_sep, ih]
        rfl
      · rw [List.cons_append, cut, if_neg hx, cut, if_neg hx, ih]
        cases hcut : (cut sep xs).1 with
        | nil => rw [List.nil_append, List.nil_append, List.cons_append, cut, if_neg hx]
        | cons piece pieces => rfl

end Pieces

end HavokMud.Sequence
