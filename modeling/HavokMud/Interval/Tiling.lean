import Mathlib.Algebra.Order.Group.Int
import Mathlib.Data.List.Nodup
import Mathlib.Order.Interval.Finset.Nat
import Mathlib.Data.Int.Interval

/-!
# Tilings of an interval of addresses

A block of memory is cut into pieces.  The pieces tile the block when none is empty, none reaches
out of the block, no two meet and together they leave no gap.
-/

namespace HavokMud.Interval

variable {ι : Type*}

/-- The address ranges of lengths `n` and `m` from `a` and `b` on do not meet. -/
def Apart (a n b m : ℤ) : Prop :=
  a + n ≤ b ∨ b + m ≤ a

instance (a n b m : ℤ) : Decidable (Apart a n b m) :=
  inferInstanceAs (Decidable (_ ∨ _))

theorem Apart.symm {a n b m : ℤ} (h : Apart a n b m) : Apart b m a n :=
  Or.symm h

/-- Ranges inside of ranges that do not meet do not meet. -/
theorem Apart.mono {a n b m a' n' b' m' : ℤ} (h : Apart a n b m) (ha : a ≤ a')
    (hn : a' + n' ≤ a + n) (hb : b ≤ b') (hm : b' + m' ≤ b + m) : Apart a' n' b' m' := by
  rcases h with h | h
  · exact Or.inl (by omega)
  · exact Or.inr (by omega)

/-- The pieces, each with its start and its size, tile the `len` addresses from `lo` on. -/
structure Tiles (start size : ι → ℤ) (pieces : List ι) (lo len : ℤ) : Prop where
  nodup : pieces.Nodup
  pos : ∀ i ∈ pieces, 0 < size i
  inside : ∀ i ∈ pieces, lo ≤ start i ∧ start i + size i ≤ lo + len
  apart : ∀ i ∈ pieces, ∀ j ∈ pieces, i ≠ j → Apart (start i) (size i) (start j) (size j)
  cover : ∀ a, lo ≤ a → a < lo + len → ∃ i ∈ pieces, start i ≤ a ∧ a < start i + size i

namespace Tiles

variable {start size start' size' : ι → ℤ} {pieces : List ι} {lo len : ℤ}

theorem single {i : ι} (hlo : start i = lo) (hlen : size i = len) (hpos : 0 < len) :
    Tiles start size [i] lo len where
  nodup := List.nodup_singleton i
  pos j hj := by
    obtain rfl := List.mem_singleton.mp hj
    omega
  inside j hj := by
    obtain rfl := List.mem_singleton.mp hj
    omega
  apart j hj k hk hne := by
    obtain rfl := List.mem_singleton.mp hj
    exact absurd (List.mem_singleton.mp hk).symm hne
  cover a hle hlt := ⟨i, List.mem_singleton_self i, by omega, by omega⟩

theorem congr (h : Tiles start size pieces lo len) (hstart : ∀ i ∈ pieces, start' i = start i)
    (hsize : ∀ i ∈ pieces, size' i = size i) : Tiles start' size' pieces lo len where
  nodup := h.nodup
  pos i hi := by rw [hsize i hi]; exact h.pos i hi
  inside i hi := by rw [hstart i hi, hsize i hi]; exact h.inside i hi
  apart i hi j hj hne := by
    rw [hstart i hi, hsize i hi, hstart j hj, hsize j hj]
    exact h.apart i hi j hj hne
  cover a hle hlt := by
    obtain ⟨i, hi, hia⟩ := h.cover a hle hlt
    exact ⟨i, hi, by rw [hstart i hi, hsize i hi]; exact hia⟩

/-- Cut the first `n` addresses of a piece off from the rest, which becomes a new piece. -/
theorem split (h : Tiles start size pieces lo len) {f r : ι} (hf : f ∈ pieces) (hr : r ∉ pieces)
    {n : ℤ} (hn : 0 < n) (hlt : n < size f)
    (hstart : ∀ i ∈ pieces, start' i = start i) (hstartr : start' r = start f + n)
    (hsizef : size' f = n) (hsizer : size' r = size f - n)
    (hsize : ∀ i ∈ pieces, i ≠ f → size' i = size i) :
    Tiles start' size' (pieces ++ [r]) lo len := by
  -- every old piece keeps its start and does not grow
  have hshrink : ∀ i ∈ pieces, size' i ≤ size i := by
    intro i hi
    by_cases hif : i = f
    · subst hif
      omega
    · exact (hsize i hi hif).le
  have hrest : ∀ i ∈ pieces, Apart (start' i) (size' i) (start' r) (size' r) := by
    intro i hi
    rw [hstart i hi, hstartr, hsizer]
    by_cases hif : i = f
    · subst hif
      exact Or.inl (by omega)
    · rw [hsize i hi hif]
      exact (h.apart i hi f hf hif).mono le_rfl le_rfl (by omega) (by omega)
  refine ⟨?_, ?_, ?_, ?_, ?_⟩
  · rw [List.nodup_append]
    exact ⟨h.nodup, List.nodup_singleton r, fun i hi j hj heq ↦
      hr (by rwa [← List.mem_singleton.mp hj, ← heq])⟩
  · intro i hi
    rcases List.mem_append.mp hi with hi | hi
    · by_cases hif : i = f
      · rw [hif, hsizef]
        exact hn
      · rw [hsize i hi hif]
        exact h.pos i hi
    · rw [List.mem_singleton.mp hi]
      omega
  · intro i hi
    rcases List.mem_append.mp hi with hi | hi
    · have hin := h.inside i hi
      have hle := hshrink i hi
      rw [hstart i hi]
      omega
    · have hin := h.inside f hf
      rw [List.mem_singleton.mp hi]
      omega
  · intro i hi j hj hne
    rcases List.mem_append.mp hi with hi | hi
    · rcases List.mem_append.mp hj with hj | hj
      · have hi' := hshrink i hi
        have hj' := hshrink j hj
        rw [hstart i hi, hstart j hj]
        exact (h.apart i hi j hj hne).mono le_rfl (by omega) le_rfl (by omega)
      · rw [List.mem_singleton.mp hj]
        exact hrest i hi
    · rcases List.mem_append.mp hj with hj | hj
      · rw [List.mem_singleton.mp hi]
        exact (hrest j hj).symm
      · exact absurd ((List.mem_singleton.mp hi).trans (List.mem_singleton.mp hj).symm) hne
  · intro a hle hlt'
    obtain ⟨i, hi, hia⟩ := h.cover a hle hlt'
    by_cases hif : i = f
    · subst hif
      by_cases hcut : a < start i + n
      · exact ⟨i, List.mem_append_left _ hi, by rw [hstart i hi]; omega⟩
      · exact ⟨r, List.mem_append_right _ (List.mem_singleton_self r), by omega, by omega⟩
    · exact ⟨i, List.mem_append_left _ hi, by rw [hstart i hi, hsize i hi hif]; exact hia⟩

/-- A piece as long as the whole interval is the only piece. -/
theorem eq_singleton (h : Tiles start size pieces lo len) {f : ι} (hf : f ∈ pieces)
    (hwhole : size f = len) : pieces = [f] := by
  have honly : ∀ i ∈ pieces, i = f := by
    intro i hi
    by_contra hne
    have hin := h.inside i hi
    have hinf := h.inside f hf
    have hpos := h.pos i hi
    rcases h.apart i hi f hf hne with hap | hap <;> omega
  have hnodup := h.nodup
  match pieces, hf, honly, hnodup with
  | [i], hf, _, _ => rw [List.mem_singleton.mp hf]
  | i :: j :: rest, _, honly, hnodup =>
      have hij : i = j := (honly i (by simp)).trans (honly j (by simp)).symm
      simp [hij] at hnodup

/-- The only piece is as long as the whole interval. -/
theorem size_eq {f : ι} (h : Tiles start size [f] lo len) (hpos : 0 < len) :
    start f = lo ∧ size f = len := by
  have hin := h.inside f (List.mem_singleton_self f)
  obtain ⟨i, hi, hfirst⟩ := h.cover lo le_rfl (by omega)
  obtain ⟨j, hj, hlast⟩ := h.cover (lo + len - 1) (by omega) (by omega)
  rw [List.mem_singleton.mp hi] at hfirst
  rw [List.mem_singleton.mp hj] at hlast
  omega

end Tiles

/-! ## Ranges that do not meet -/

/-- The addresses of some ranges, each given with its length. -/
def covered : List (ℤ × ℤ) → List ℤ
  | [] => []
  | x :: ranges => (List.range x.2.toNat).map (fun i : ℕ ↦ x.1 + i) ++ covered ranges

theorem mem_covered {ranges : List (ℤ × ℤ)} {a : ℤ} :
    a ∈ covered ranges ↔ ∃ x ∈ ranges, x.1 ≤ a ∧ a < x.1 + x.2 := by
  have hrange : ∀ x : ℤ × ℤ, a ∈ (List.range x.2.toNat).map (fun i : ℕ ↦ x.1 + i) ↔
      x.1 ≤ a ∧ a < x.1 + x.2 := by
    intro x
    rw [List.mem_map]
    constructor
    · rintro ⟨i, hi, rfl⟩
      rw [List.mem_range] at hi
      omega
    · rintro ⟨hlo, hhi⟩
      exact ⟨(a - x.1).toNat, List.mem_range.mpr (by omega), by omega⟩
  induction ranges with
  | nil => simp [covered]
  | cons x ranges ih =>
      calc
        a ∈ covered (x :: ranges) ↔ _ ∨ a ∈ covered ranges := List.mem_append
        _ ↔ (x.1 ≤ a ∧ a < x.1 + x.2) ∨ ∃ y ∈ ranges, y.1 ≤ a ∧ a < y.1 + y.2 :=
          or_congr (hrange x) ih
        _ ↔ ∃ y ∈ x :: ranges, y.1 ≤ a ∧ a < y.1 + y.2 := by
          rw [List.exists_mem_cons_iff]

theorem length_covered {ranges : List (ℤ × ℤ)} (hnonneg : ∀ x ∈ ranges, 0 ≤ x.2) :
    ((covered ranges).length : ℤ) = (ranges.map Prod.snd).sum := by
  induction ranges with
  | nil => rfl
  | cons x ranges ih =>
      obtain ⟨hx, hrest⟩ := List.forall_mem_cons.mp hnonneg
      rw [covered, List.length_append, List.length_map, List.length_range, Nat.cast_add,
        Int.toNat_of_nonneg hx, ih hrest, List.map_cons, List.sum_cons]

theorem nodup_covered {ranges : List (ℤ × ℤ)}
    (hapart : ranges.Pairwise fun x y ↦ Apart x.1 x.2 y.1 y.2) : (covered ranges).Nodup := by
  induction ranges with
  | nil => exact List.nodup_nil
  | cons x ranges ih =>
      obtain ⟨hfirst, hrest⟩ := List.pairwise_cons.mp hapart
      refine List.Nodup.append ?_ (ih hrest) ?_
      · exact List.nodup_range.map fun i j hij ↦ by simpa using hij
      · intro a ha ha'
        obtain ⟨i, hi, rfl⟩ := List.mem_map.mp ha
        obtain ⟨y, hy, hlo, hhi⟩ := mem_covered.mp ha'
        rw [List.mem_range] at hi
        rcases hfirst y hy with h | h <;> omega

/-- Ranges that do not meet have room in an interval only if their lengths have. -/
theorem sum_le_of_apart {ranges : List (ℤ × ℤ)} {lo hi : ℤ}
    (hapart : ranges.Pairwise fun x y ↦ Apart x.1 x.2 y.1 y.2) (hnonneg : ∀ x ∈ ranges, 0 ≤ x.2)
    (hinside : ∀ x ∈ ranges, lo ≤ x.1 ∧ x.1 + x.2 ≤ hi) (hle : lo ≤ hi) :
    (ranges.map Prod.snd).sum ≤ hi - lo := by
  have hsub : (covered ranges).toFinset ⊆ Finset.Ico lo hi := by
    intro a ha
    obtain ⟨x, hx, hlo, hhi⟩ := mem_covered.mp (List.mem_toFinset.mp ha)
    have hin := hinside x hx
    rw [Finset.mem_Ico]
    omega
  have hcard := Finset.card_le_card hsub
  rw [Int.card_Ico, List.toFinset_card_of_nodup (nodup_covered hapart)] at hcard
  rw [← length_covered hnonneg]
  omega

end HavokMud.Interval
