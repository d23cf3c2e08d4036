import Mathlib.Data.List.TakeWhile

/-!
# Runs without separators

The maximal runs of a sequence without separators, from left to right.  Any number of separators may
stand before, between and behind them.
-/

namespace HavokMud.Sequence

variable {α : Type}

/-- The maximal runs without separators. -/
def runs (sep : α → Bool) (xs : List α) : List (List α) :=
  (xs.splitOnP sep).filter (· ≠ [])

variable {sep : α → Bool} {x : α} {xs ys run : List α}

@[simp]
theorem runs_nil : runs sep [] = [] :=
  rfl

/-- A separator ends what is in front of it. -/
theorem runs_append_cons (xs ys : List α) (hx : sep x = true) :
    runs sep (xs ++ x :: ys) = runs sep xs ++ runs sep ys := by
  unfold runs
  rw [List.splitOnP_append_cons xs ys hx, List.filter_append]

theorem runs_cons (hx : sep x = true) (ys : List α) : runs sep (x :: ys) = runs sep ys :=
  runs_append_cons [] ys hx

theorem runs_append_left (hxs : ∀ x ∈ xs, sep x = true) (ys : List α) :
    runs sep (xs ++ ys) = runs sep ys := by
  induction xs with
  | nil => rfl
  | cons x xs ih =>
      obtain ⟨hx, hxs⟩ := List.forall_mem_cons.mp hxs
      rw [List.cons_append, runs_cons hx, ih hxs]

theorem runs_eq_nil (hxs : ∀ x ∈ xs, sep x = true) : runs sep xs = [] := by
  simpa using runs_append_left hxs []

theorem runs_run (hne : run ≠ []) (hrun : ∀ x ∈ run, sep x = false) : runs sep run = [run] := by
  unfold runs
  rw [List.splitOnP_eq_singleton hrun]
  simp [hne]

/-- A run that a separator ends. -/
theorem runs_run_append (hne : run ≠ []) (hrun : ∀ x ∈ run, sep x = false) (hx : sep x = true)
    (ys : List α) : runs sep (run ++ x :: ys) = run :: runs sep ys := by
  rw [runs_append_cons run ys hx, runs_run hne hrun, List.singleton_append]

/-- A sequence is separators alone, or begins with separators and a run that ends with it or at a
separator. -/
theorem runs_cases (sep : α → Bool) (xs : List α) :
    (∀ x ∈ xs, sep x = true) ∨
      ∃ gap run, (∀ x ∈ gap, sep x = true) ∧ run ≠ [] ∧ (∀ x ∈ run, sep x = false) ∧
        (xs = gap ++ run ∨ ∃ x ys, sep x = true ∧ xs = gap ++ (run ++ x :: ys)) := by
  induction xs with
  | nil => exact .inl (by simp)
  | cons x xs ih =>
      by_cases hx : sep x = true
      · rcases ih with hall | ⟨gap, run, hgap, hne, hrun, hend⟩
        · exact .inl (List.forall_mem_cons.mpr ⟨hx, hall⟩)
        · refine .inr ⟨x :: gap, run, List.forall_mem_cons.mpr ⟨hx, hgap⟩, hne, hrun, ?_⟩
          rcases hend with rfl | ⟨y, ys, hy, rfl⟩
          · exact .inl rfl
          · exact .inr ⟨y, ys, hy, rfl⟩
      · refine .inr ⟨[], x :: xs.takeWhile (!sep ·), by simp, by simp, ?_, ?_⟩
        · refine List.forall_mem_cons.mpr ⟨by simpa using hx, ?_⟩
          intro y hy
          simpa using List.mem_takeWhile_imp hy
        · have hsplit := List.takeWhile_append_dropWhile (p := (!sep ·)) (l := xs)
          cases hrest : xs.dropWhile (!sep ·) with
          | nil =>
              rw [hrest, List.append_nil] at hsplit
              exact .inl (by rw [hsplit, List.nil_append])
          | cons y ys =>
              have hy : sep y = true := by
                have hhead := List.head?_dropWhile_not (!sep ·) xs
                rw [hrest] at hhead
                simpa using hhead
              rw [hrest] at hsplit
              exact .inr ⟨y, ys, hy, by rw [List.nil_append, List.cons_append, hsplit]⟩

/-- The first run, and what stands around it. -/
theorem runs_eq_cons {rest : List (List α)} (h : runs sep xs = run :: rest) :
    ∃ gap, (∀ x ∈ gap, sep x = true) ∧ run ≠ [] ∧ (∀ x ∈ run, sep x = false) ∧
      (xs = gap ++ run ∧ rest = [] ∨
        ∃ x ys, sep x = true ∧ xs = gap ++ (run ++ x :: ys) ∧ runs sep ys = rest) := by
  rcases runs_cases sep xs with hall | ⟨gap, run', hgap, hne, hrun, hend⟩
  · rw [runs_eq_nil hall] at h
    cases h
  · rcases hend with rfl | ⟨x, ys, hx, rfl⟩
    · rw [runs_append_left hgap, runs_run hne hrun] at h
      obtain ⟨rfl, rfl⟩ := List.cons.inj h
      exact ⟨gap, hgap, hne, hrun, .inl ⟨rfl, rfl⟩⟩
    · rw [runs_append_left hgap, runs_run_append hne hrun hx] at h
      obtain ⟨rfl, rfl⟩ := List.cons.inj h
      exact ⟨gap, hgap, hne, hrun, .inr ⟨x, ys, hx, rfl, rfl⟩⟩

theorem runs_eq_nil_iff : runs sep xs = [] ↔ ∀ x ∈ xs, sep x = true := by
  refine ⟨fun h ↦ ?_, runs_eq_nil⟩
  rcases runs_cases sep xs with hall | ⟨gap, run, hgap, hne, hrun, hend⟩
  · exact hall
  · rcases hend with rfl | ⟨x, ys, hx, rfl⟩
    · rw [runs_append_left hgap, runs_run hne hrun] at h
      cases h
    · rw [runs_append_left hgap, runs_run_append hne hrun hx] at h
      cases h

end HavokMud.Sequence
