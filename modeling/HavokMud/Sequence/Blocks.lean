import Mathlib.Data.List.Basic
import Mathlib.Data.Nat.Bitwise
import Mathlib.Data.UInt

/-!
# Blocks and bits

A sequence is taken in blocks of one length.  What does not fill a block is kept for later, so a
sequence may come in parts of any lengths.

The bits behind a pointer are counted from the highest bit of the first byte on.  What is packed
into fields of any width is described by the bits that are read and written, whatever bytes they
stand in.
-/

namespace HavokMud.Sequence

section Blocks

variable {α σ : Type} (f : σ → List α → σ) (n : ℕ)

/-- The first `k` blocks. -/
def foldBlocks : ℕ → σ → List α → σ
  | 0, s, _ => s
  | k + 1, s, xs => foldBlocks k (f s (xs.take n)) (xs.drop n)

/-- The state behind all whole blocks, and what is left. -/
def absorb (s : σ) (xs : List α) : σ × List α :=
  (foldBlocks f n (xs.length / n) s xs, xs.drop (xs.length / n * n))

variable {f n} {s : σ} {block xs ys : List α}

theorem absorb_of_lt (h : xs.length < n) : absorb f n s xs = (s, xs) := by
  rw [absorb, Nat.div_eq_of_lt h, Nat.zero_mul]
  rfl

/-- A block at the beginning is taken first. -/
theorem absorb_block (hn : 0 < n) (hblock : block.length = n) (xs : List α) :
    absorb f n s (block ++ xs) = absorb f n (f s block) xs := by
  have hblocks : (block ++ xs).length / n = xs.length / n + 1 := by
    rw [List.length_append, hblock, Nat.add_div_left _ hn]
  have hrest : xs.length / n * n + n = n + xs.length / n * n := Nat.add_comm _ _
  rw [absorb, absorb, hblocks, Nat.succ_mul, hrest, ← List.drop_drop, foldBlocks,
    List.take_left' hblock, List.drop_left' hblock]

/-- Blocks are taken from a sequence until what is left is shorter than one. -/
theorem block_induction {motive : List α → Prop} (hn : 0 < n)
    (short : ∀ xs : List α, xs.length < n → motive xs)
    (more : ∀ block xs : List α, block.length = n → motive xs → motive (block ++ xs))
    (xs : List α) : motive xs := by
  induction h : xs.length using Nat.strongRecOn generalizing xs with
  | ind length ih =>
      by_cases hlt : xs.length < n
      · exact short xs hlt
      have hlong : n ≤ xs.length := Nat.not_lt.mp hlt
      rw [← List.take_append_drop n xs]
      refine more _ _ (List.length_take_of_le hlong) (ih _ ?_ _ rfl)
      rw [List.length_drop, ← h]
      exact Nat.sub_lt (Nat.lt_of_lt_of_le hn hlong) hn

theorem length_absorb (s : σ) (xs : List α) : (absorb f n s xs).2.length = xs.length % n := by
  rw [absorb, List.length_drop, Nat.mod_eq_sub_div_mul]

/-- What was left is put in front of what comes next. -/
theorem absorb_append (hn : 0 < n) (s : σ) (xs ys : List α) :
    absorb f n s (xs ++ ys) = absorb f n (absorb f n s xs).1 ((absorb f n s xs).2 ++ ys) := by
  induction xs using block_induction hn generalizing s with
  | short xs hlt => rw [absorb_of_lt hlt]
  | more block xs hblock ih =>
      rw [List.append_assoc, absorb_block hn hblock, absorb_block hn hblock, ih]

end Blocks

/-! ## Padding -/

section Padding

variable {α : Type}

/-- A mark and any number of blanks behind a sequence. -/
def padded (mark blank : α) (blanks : ℕ) (xs : List α) : List α :=
  xs ++ mark :: List.replicate blanks blank

end Padding

/-! ## Bits -/

section Bits

/-- The bit at a place. -/
def bitAt (s : ℕ → UInt8) (p : ℕ) : Bool :=
  (s (p / 8)).toNat.testBit (7 - p % 8)

/-- Three bytes as one number. -/
def window (s : ℕ → UInt8) (i : ℕ) : UInt32 :=
  ((s i).toUInt32 <<< 8 ||| (s (i + 1)).toUInt32) <<< 8 ||| (s (i + 2)).toUInt32

variable {s t : ℕ → UInt8} {i j : ℕ}

theorem testBit_eq_false (c : UInt8) (hj : 8 ≤ j) : c.toNat.testBit j = false := by
  apply Nat.testBit_lt_two_pow
  exact Nat.lt_of_lt_of_le c.toNat_lt (Nat.pow_le_pow_right (by decide) hj)

/-- A byte is its eight bits. -/
theorem byte_ext (h : ∀ p, 8 * i ≤ p → p < 8 * i + 8 → bitAt s p = bitAt t p) : s i = t i := by
  apply UInt8.toNat_inj.mp
  apply Nat.eq_of_testBit_eq
  intro j
  by_cases hj : j < 8
  · have hbit := h (8 * i + (7 - j)) (by omega) (by omega)
    have hbyte : (8 * i + (7 - j)) / 8 = i := by omega
    have hplace : 7 - (8 * i + (7 - j)) % 8 = j := by omega
    unfold bitAt at hbit
    rwa [hbyte, hplace] at hbit
  · rw [testBit_eq_false _ (Nat.not_lt.mp hj), testBit_eq_false _ (Nat.not_lt.mp hj)]

theorem bitAt_congr {p : ℕ} (h : s (p / 8) = t (p / 8)) : bitAt s p = bitAt t p := by
  unfold bitAt
  rw [h]

/-- The bits of three bytes. -/
theorem testBit_window (s : ℕ → UInt8) (i j : ℕ) :
    (window s i).toNat.testBit j = (decide (j < 24) && bitAt s (8 * i + (23 - j))) := by
  have h8 : (8 : UInt32).toNat = 8 := rfl
  have hor : (window s i).toNat.testBit j =
      (decide (16 ≤ j ∧ j < 32) && (s i).toNat.testBit (j - 16) ||
        decide (8 ≤ j ∧ j < 32) && (s (i + 1)).toNat.testBit (j - 8) ||
        (s (i + 2)).toNat.testBit j) := by
    simp only [window, UInt32.toNat_or, UInt32.toNat_shiftLeft, UInt8.toNat_toUInt32,
      Nat.testBit_or, h8, Nat.testBit_mod_two_pow, Nat.testBit_shiftLeft]
    grind
  have hfirst := testBit_eq_false (j := j - 16) (s i)
  have hsecond := testBit_eq_false (j := j - 8) (s (i + 1))
  have hthird := testBit_eq_false (j := j) (s (i + 2))
  rw [hor]
  unfold bitAt
  rcases (show j < 8 ∨ (8 ≤ j ∧ j < 16) ∨ (16 ≤ j ∧ j < 24) ∨ 24 ≤ j by omega) with
    hj | ⟨hj, hj'⟩ | ⟨hj, hj'⟩ | hj
  · have hbyte : (8 * i + (23 - j)) / 8 = i + 2 := by omega
    have hplace : 7 - (8 * i + (23 - j)) % 8 = j := by omega
    rw [hbyte, hplace]
    grind
  · have hbyte : (8 * i + (23 - j)) / 8 = i + 1 := by omega
    have hplace : 7 - (8 * i + (23 - j)) % 8 = j - 8 := by omega
    rw [hbyte, hplace]
    grind
  · have hbyte : (8 * i + (23 - j)) / 8 = i := by omega
    have hplace : 7 - (8 * i + (23 - j)) % 8 = j - 16 := by omega
    rw [hbyte, hplace]
    grind
  · grind

end Bits

end HavokMud.Sequence
