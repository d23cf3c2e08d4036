import Mathlib.Data.List.Forall2
import Mathlib.Data.List.Nodup
import Mathlib.Data.List.Perm.Basic
import Mathlib.Data.Nat.Find

/-!
# First fit

Some things take places one after the other, each of them the first place that fits it and that is
still free.  If a thing fits the places of its own kind this finds places for all whenever there are
enough of each kind.  If things differ in the places that fit them, an early one may take the only
place of a later one.
-/

namespace HavokMud.Matching

variable {α β γ : Type*}

/-- The marks of the places, with the first free one that fits marked. -/
def markFirst (fits : β → Bool) : List β → List Bool → Option (List Bool)
  | y :: ys, taken :: marks =>
      if !taken && fits y then some (true :: marks)
      else (markFirst fits ys marks).map fun marks ↦ taken :: marks
  | _, _ => none

/-- The things in turn mark their places, until one of them finds none. -/
def markEach (fits : α → β → Bool) (ys : List β) : List α → List Bool → Bool × List Bool
  | [], marks => (true, marks)
  | x :: xs, marks =>
      match markFirst (fits x) ys marks with
      | none => (false, marks)
      | some marks => markEach fits ys xs marks

/-- The place fits. -/
def Fits (fits : β → Bool) (ys : List β) (j : ℕ) : Prop :=
  ∃ y, ys[j]? = some y ∧ fits y = true

/-- Different places that fit, one for each of the things. -/
def Assigns (fits : α → β → Bool) (ys : List β) (xs : List α) (js : List ℕ) : Prop :=
  js.Nodup ∧ List.Forall₂ (fun x j ↦ Fits (fits x) ys j) xs js

/-- The places of first fit: each is the first that fits and that is not taken. -/
def FirstFit (fits : α → β → Bool) (ys : List β) : List ℕ → List α → List ℕ → Prop
  | _, [], [] => True
  | taken, x :: xs, j :: js =>
      (Fits (fits x) ys j ∧ j ∉ taken ∧ ∀ i < j, Fits (fits x) ys i → i ∈ taken) ∧
        FirstFit fits ys (j :: taken) xs js
  | _, _, _ => False

/-! ## Marks -/

section Marks

variable {fits : β → Bool} {ys : List β} {marks marks' : List Bool}

/-- The place fits and is free. -/
def Free (fits : β → Bool) (ys : List β) (marks : List Bool) (j : ℕ) : Prop :=
  Fits fits ys j ∧ marks[j]? = some false

theorem free_cons_zero {y : β} {taken : Bool} :
    Free fits (y :: ys) (taken :: marks) 0 ↔ fits y = true ∧ taken = false := by
  simp [Free, Fits]

theorem free_cons_succ {y : β} {taken : Bool} {j : ℕ} :
    Free fits (y :: ys) (taken :: marks) (j + 1) ↔ Free fits ys marks j := by
  simp [Free, Fits]

theorem markFirst_eq_none_iff : markFirst fits ys marks = none ↔ ∀ j, ¬ Free fits ys marks j := by
  induction ys generalizing marks with
  | nil => simp [markFirst, Free, Fits]
  | cons y ys ih =>
      cases marks with
      | nil => simp [markFirst, Free]
      | cons taken marks =>
          by_cases hfree : fits y = true ∧ taken = false
          · have hzero : Free fits (y :: ys) (taken :: marks) 0 := free_cons_zero.mpr hfree
            refine iff_of_false ?_ fun hnone ↦ hnone 0 hzero
            simp [markFirst, hfree.1, hfree.2]
          · have hcond : ¬ (!taken && fits y) = true := by
              simpa [and_comm] using hfree
            rw [markFirst, if_neg hcond, Option.map_eq_none_iff, ih]
            constructor
            · rintro hnone (_ | j)
              · exact free_cons_zero.not.mpr hfree
              · exact free_cons_succ.not.mpr (hnone j)
            · exact fun hnone j ↦ free_cons_succ.not.mp (hnone (j + 1))

theorem markFirst_eq_some (h : markFirst fits ys marks = some marks') :
    ∃ j, Free fits ys marks j ∧ (∀ i < j, ¬ Free fits ys marks i) ∧ marks' = marks.set j true := by
  induction ys generalizing marks marks' with
  | nil => simp [markFirst] at h
  | cons y ys ih =>
      cases marks with
      | nil => simp [markFirst] at h
      | cons taken marks =>
          by_cases hfree : fits y = true ∧ taken = false
          · refine ⟨0, free_cons_zero.mpr hfree, by simp, ?_⟩
            simp only [markFirst, hfree.1, hfree.2] at h
            exact (Option.some.inj h).symm
          · have hcond : ¬ (!taken && fits y) = true := by
              simpa [and_comm] using hfree
            rw [markFirst, if_neg hcond, Option.map_eq_some_iff] at h
            obtain ⟨marks₁, hrun, rfl⟩ := h
            obtain ⟨j, hj, hbefore, rfl⟩ := ih hrun
            refine ⟨j + 1, free_cons_succ.mpr hj, ?_, by simp⟩
            rintro (_ | i) hi
            · exact free_cons_zero.not.mpr hfree
            · exact free_cons_succ.not.mpr (hbefore i (by omega))

end Marks

/-! ## Places -/

section Places

variable {fits : α → β → Bool} {ys : List β} {xs : List α} {taken js : List ℕ} {marks : List Bool}

/-- The marks are those of the places that are taken. -/
def Marks (ys : List β) (taken : List ℕ) (marks : List Bool) : Prop :=
  ∀ j < ys.length, marks[j]? = some (decide (j ∈ taken))

theorem Marks.none (ys : List β) : Marks ys [] (List.replicate ys.length false) := by
  intro j hj
  simp [hj]

theorem Marks.set (h : Marks ys taken marks) (j : ℕ) :
    Marks ys (j :: taken) (marks.set j true) := by
  intro i hi
  have hmark := h i hi
  have hlength := (List.getElem?_eq_some_iff.mp hmark).1
  rw [List.getElem?_set]
  by_cases hij : j = i
  · subst hij
    simp [hlength]
  · have hne : i ≠ j := fun heq ↦ hij heq.symm
    simp [hij, hne, hmark]

theorem Fits.lt {fits : β → Bool} {j : ℕ} (h : Fits fits ys j) : j < ys.length := by
  obtain ⟨y, hy, -⟩ := h
  exact (List.getElem?_eq_some_iff.mp hy).1

end Places

/-! ## Kinds -/

section Kinds

variable {fits : α → β → Bool} {f : α → γ} {g : β → γ} {ys : List β} {xs : List α}
  {marks : List Bool}

/-- The kinds of the free places. -/
def freeKinds (g : β → γ) : List β → List Bool → List γ
  | y :: ys, taken :: marks => if taken then freeKinds g ys marks else g y :: freeKinds g ys marks
  | _, _ => []

theorem freeKinds_none (ys : List β) :
    freeKinds g ys (List.replicate ys.length false) = ys.map g := by
  induction ys with
  | nil => rfl
  | cons y ys ih =>
      rw [List.length_cons, List.replicate_succ]
      simp [freeKinds, ih]

/-- A marked place is one less of its kind. -/
theorem freeKinds_perm {j : ℕ} {y : β} (hy : ys[j]? = some y) (hfree : marks[j]? = some false) :
    (freeKinds g ys marks).Perm (g y :: freeKinds g ys (marks.set j true)) := by
  induction ys generalizing marks j with
  | nil => simp at hy
  | cons y' ys ih =>
      cases marks with
      | nil => simp at hfree
      | cons taken marks =>
          cases j with
          | zero =>
              obtain rfl : y' = y := by simpa using hy
              obtain rfl : taken = false := by simpa using hfree
              simp [freeKinds]
          | succ j =>
              have hrest := ih (j := j) (by simpa using hy) (by simpa using hfree)
              cases taken with
              | true => simpa [freeKinds] using hrest
              | false =>
                  simp only [List.set_cons_succ, freeKinds, Bool.false_eq_true, if_false]
                  exact (hrest.cons (g y')).trans (.swap _ _ _)

theorem mem_freeKinds {c : γ} :
    c ∈ freeKinds g ys marks ↔
      ∃ (j : ℕ) (y : β), ys[j]? = some y ∧ marks[j]? = some false ∧ g y = c := by
  constructor
  · intro hc
    induction ys generalizing marks with
    | nil => simp [freeKinds] at hc
    | cons y ys ih =>
        cases marks with
        | nil => simp [freeKinds] at hc
        | cons taken marks =>
            have hcases : taken = false ∧ c = g y ∨ c ∈ freeKinds g ys marks := by
              cases taken with
              | true => exact .inr (by simpa [freeKinds] using hc)
              | false => simpa [freeKinds] using hc
            rcases hcases with ⟨rfl, rfl⟩ | hrest
            · exact ⟨0, y, by simp, by simp, rfl⟩
            · obtain ⟨j, y', hy, hfree, rfl⟩ := ih hrest
              exact ⟨j + 1, y', by simpa using hy, by simpa using hfree, rfl⟩
  · rintro ⟨j, y, hy, hfree, rfl⟩
    exact (freeKinds_perm hy hfree).mem_iff.mpr List.mem_cons_self

/-- If the places of a kind fit the things of that kind, all things find places if and only if there
are enough free ones of each kind. -/
theorem markEach_iff_count [BEq γ] [LawfulBEq γ]
    (hkind : ∀ x ∈ xs, ∀ y ∈ ys, fits x y = true ↔ f x = g y) :
    (markEach fits ys xs marks).1 = true ↔
      ∀ c, (xs.map f).count c ≤ (freeKinds g ys marks).count c := by
  induction xs generalizing marks with
  | nil => simp [markEach]
  | cons x xs ih =>
      have hx : ∀ y ∈ ys, fits x y = true ↔ f x = g y := hkind x List.mem_cons_self
      have hxs : ∀ x ∈ xs, ∀ y ∈ ys, fits x y = true ↔ f x = g y :=
        fun x' hx' ↦ hkind x' (List.mem_cons_of_mem x hx')
      cases hrun : markFirst (fits x) ys marks with
      | none =>
          have hfail : (markEach fits ys (x :: xs) marks).1 = false := by
            rw [markEach, hrun]
          rw [hfail]
          refine iff_of_false (by simp) fun hcount ↦ ?_
          have hpos : 0 < (freeKinds g ys marks).count (f x) := by
            have hone : 0 < ((x :: xs).map f).count (f x) := by simp
            exact Nat.lt_of_lt_of_le hone (hcount (f x))
          obtain ⟨j, y, hy, hfree, heq⟩ := mem_freeKinds.mp (List.count_pos_iff.mp hpos)
          exact markFirst_eq_none_iff.mp hrun j
            ⟨⟨y, hy, (hx y (List.mem_of_getElem? hy)).mpr heq.symm⟩, hfree⟩
      | some marks' =>
          obtain ⟨j, ⟨⟨y, hy, hfits⟩, hfree⟩, -, rfl⟩ := markFirst_eq_some hrun
          have hturn :
              markEach fits ys (x :: xs) marks = markEach fits ys xs (marks.set j true) := by
            rw [markEach, hrun]
          rw [hturn, ih hxs]
          refine forall_congr' fun c ↦ ?_
          rw [(freeKinds_perm hy hfree).count_eq, List.map_cons, List.count_cons, List.count_cons,
            (hx y (List.mem_of_getElem? hy)).mp hfits]
          exact (Nat.add_le_add_iff_right).symm

end Kinds

/-! ## Nested kinds -/

section Nested

variable {fits : α → β → Bool} {ys : List β} {xs : List α} {taken js : List ℕ}

/-- One place is given for another. -/
theorem Assigns.replace (h : Assigns fits ys xs js) {j i : ℕ} (hi : i ∉ js)
    (hfits : ∀ x ∈ xs, Fits (fits x) ys j → Fits (fits x) ys i) :
    Assigns fits ys xs (js.map fun k ↦ if k = j then i else k) := by
  obtain ⟨hnodup, hforall⟩ := h
  refine ⟨?_, ?_⟩
  · refine List.Nodup.map_on (fun k hk l hl heq ↦ ?_) hnodup
    have hki : k ≠ i := fun heq ↦ hi (heq ▸ hk)
    have hli : l ≠ i := fun heq ↦ hi (heq ▸ hl)
    split_ifs at heq with hkj hlj hlj
    · exact hkj.trans hlj.symm
    · exact absurd heq.symm hli
    · exact absurd heq hki
    · exact heq
  · rw [List.forall₂_map_right_iff]
    rw [List.forall₂_iff_zip] at hforall ⊢
    refine ⟨hforall.1, fun {x k} hmem ↦ ?_⟩
    have hxk := hforall.2 hmem
    split_ifs with hkj
    · exact hfits x (List.of_mem_zip hmem).1 (hkj ▸ hxk)
    · exact hxk

/-- If what fits an earlier thing and a later one is not wider for the earlier, first fit finds
places for all whenever there are such. -/
theorem exists_firstFit (hnested : xs.Pairwise fun x x' ↦ ∀ y, fits x y = true → fits x' y = true →
      ∀ z, fits x z = true → fits x' z = true)
    (hassigns : ∃ js, Assigns fits ys xs js ∧ ∀ j ∈ js, j ∉ taken) :
    ∃ js, FirstFit fits ys taken xs js := by
  classical
  induction xs generalizing taken with
  | nil => exact ⟨[], trivial⟩
  | cons x xs ih =>
      obtain ⟨hx, hnested⟩ := List.pairwise_cons.mp hnested
      obtain ⟨all, ⟨hall, hforall⟩, hfree⟩ := hassigns
      obtain ⟨i, js, hfitsi, hrest, rfl⟩ := List.forall₂_cons_left_iff.mp hforall
      obtain ⟨hi, hnodup⟩ := List.nodup_cons.mp hall
      have hexists : ∃ j, Fits (fits x) ys j ∧ j ∉ taken := ⟨i, hfitsi, hfree i (by simp)⟩
      obtain ⟨hfits, hnew⟩ := Nat.find_spec hexists
      have hfirst : ∀ k < Nat.find hexists, Fits (fits x) ys k → k ∈ taken := by
        intro k hk hfitsk
        by_contra hfreek
        exact Nat.find_min hexists hk ⟨hfitsk, hfreek⟩
      -- whoever has this place takes the one that was given to the first thing
      have hother : ∀ x' ∈ xs, Fits (fits x') ys (Nat.find hexists) → Fits (fits x') ys i := by
        rintro x' hx' ⟨y', hy', hfits'⟩
        obtain ⟨y, hy, hfitsy⟩ := hfits
        obtain rfl : y = y' := Option.some.inj (hy.symm.trans hy')
        obtain ⟨z, hz, hfitsz⟩ := hfitsi
        exact ⟨z, hz, hx x' hx' y hfitsy hfits' z hfitsz⟩
      have hreplaced := Assigns.replace ⟨hnodup, hrest⟩ hi hother
      have hleft : ∀ k ∈ js.map (fun k ↦ if k = Nat.find hexists then i else k),
          k ∉ Nat.find hexists :: taken := by
        intro k hk
        obtain ⟨l, hl, rfl⟩ := List.mem_map.mp hk
        rw [List.mem_cons, not_or]
        split_ifs with hlj
        · exact ⟨fun heq ↦ hi (by rwa [heq, ← hlj]), hfree i (by simp)⟩
        · exact ⟨hlj, hfree l (by simp [hl])⟩
      obtain ⟨js', hjs'⟩ := ih hnested ⟨_, hreplaced, hleft⟩
      exact ⟨Nat.find hexists :: js', ⟨hfits, hnew, hfirst⟩, hjs'⟩

end Nested

end HavokMud.Matching
