import HavokMud.SearchTree.Index
import Mathlib.Data.List.Lex
import Mathlib.Data.UInt

/-!
# The comparison callbacks

`BalancedBTreeCreate` gives each tree the callback of its key type.  The integer and the pointer
callback subtract, so they compare in the order of the keys as long as the difference fits the
type it is computed in.  The string callback compares without regard to case.
-/

namespace HavokMud.BTree

open BinaryTree SearchTree

/-- The end of every callback: only the sign of the result is kept. -/
def clampSign (res : ℤ) : ℤ :=
  if 1 < res then 1 else if res < -1 then -1 else res

theorem clampSign_neg_iff {res : ℤ} : clampSign res < 0 ↔ res < 0 := by
  unfold clampSign
  split_ifs <;> omega

theorem clampSign_pos_iff {res : ℤ} : 0 < clampSign res ↔ 0 < res := by
  unfold clampSign
  split_ifs <;> omega

/-- `KeyCompareInt`: the difference of two `int` values, an `int` itself. -/
def keyCompareInt (l r : ℤ) : ℤ :=
  clampSign (Int.bmod (l - r) (2 ^ 32))

/-- `KeyComparePointer`: the difference of two addresses, a `long long int`. -/
def keyComparePointer (l r : ℤ) : ℤ :=
  clampSign (Int.bmod (l - r) (2 ^ 64))

/-- `tolower` of the C locale. -/
def toLower (c : UInt8) : UInt8 :=
  if 65 ≤ c ∧ c ≤ 90 then c + 32 else c

/-- `strcasecmp` of two strings given by their bytes up to the terminating `NUL`. -/
def strcasecmp : List UInt8 → List UInt8 → ℤ
  | [], [] => 0
  | [], c :: _ => -(toLower c).toNat
  | c :: _, [] => (toLower c).toNat
  | c :: cs, d :: ds =>
      if toLower c = toLower d then strcasecmp cs ds
      else (toLower c).toNat - (toLower d).toNat

/-- `KeyCompareString`. -/
def keyCompareString (l r : List UInt8) : ℤ :=
  clampSign (strcasecmp l r)

/-! ## Agreement with the order of the keys -/

theorem bmod_eq_self {m : ℕ} {x : ℤ} (hlo : -(m : ℤ) < x) (hhi : x < m) :
    Int.bmod x (2 * m) = x := by
  rw [Int.bmod_eq_iff (by omega)]
  refine ⟨by omega, by omega, ⟨0, by omega⟩⟩

theorem keyCompareInt_neg_iff {l r : ℤ} (hl : 0 ≤ l) (hl' : l < 2 ^ 31) (hr : 0 ≤ r)
    (hr' : r < 2 ^ 31) : keyCompareInt l r < 0 ↔ l < r := by
  have hsub : Int.bmod (l - r) (2 * 2 ^ 31) = l - r := bmod_eq_self (by omega) (by omega)
  rw [keyCompareInt, clampSign_neg_iff, show (2 ^ 32 : ℕ) = 2 * 2 ^ 31 by norm_num, hsub]
  omega

theorem keyCompareInt_pos_iff {l r : ℤ} (hl : 0 ≤ l) (hl' : l < 2 ^ 31) (hr : 0 ≤ r)
    (hr' : r < 2 ^ 31) : 0 < keyCompareInt l r ↔ r < l := by
  have hsub : Int.bmod (l - r) (2 * 2 ^ 31) = l - r := bmod_eq_self (by omega) (by omega)
  rw [keyCompareInt, clampSign_pos_iff, show (2 ^ 32 : ℕ) = 2 * 2 ^ 31 by norm_num, hsub]
  omega

theorem keyComparePointer_neg_iff {l r : ℤ} (hl : 0 ≤ l) (hl' : l < 2 ^ 63) (hr : 0 ≤ r)
    (hr' : r < 2 ^ 63) : keyComparePointer l r < 0 ↔ l < r := by
  have hsub : Int.bmod (l - r) (2 * 2 ^ 63) = l - r := bmod_eq_self (by omega) (by omega)
  rw [keyComparePointer, clampSign_neg_iff, show (2 ^ 64 : ℕ) = 2 * 2 ^ 63 by norm_num, hsub]
  omega

theorem keyComparePointer_pos_iff {l r : ℤ} (hl : 0 ≤ l) (hl' : l < 2 ^ 63) (hr : 0 ≤ r)
    (hr' : r < 2 ^ 63) : 0 < keyComparePointer l r ↔ r < l := by
  have hsub : Int.bmod (l - r) (2 * 2 ^ 63) = l - r := bmod_eq_self (by omega) (by omega)
  rw [keyComparePointer, clampSign_pos_iff, show (2 ^ 64 : ℕ) = 2 * 2 ^ 63 by norm_num, hsub]
  omega

/-- Two pointers that compare equal are equal. -/
theorem keyComparePointer_eq_zero {l r : ℤ} (hl : 0 ≤ l) (hl' : l < 2 ^ 64) (hr : 0 ≤ r)
    (hr' : r < 2 ^ 63) (hzero : keyComparePointer l r = 0) : l = r := by
  have hbmod : Int.bmod (l - r) (2 ^ 64) = 0 := by
    unfold keyComparePointer clampSign at hzero
    split_ifs at hzero
    · omega
    · exact hzero
  have hdvd := Int.dvd_iff_bmod_eq_zero.mpr hbmod
  obtain ⟨c, hc⟩ := hdvd
  push_cast at hc
  omega

/-- Among sizes an `int` can hold the integer callback orders a tree. -/
theorem agrees_keyCompareInt {α : Type} {size : α → ℤ} {k : ℤ} {t : BinaryTree α} (hk : 0 ≤ k)
    (hk' : k < 2 ^ 31) (hsize : ∀ a ∈ inorder t, 0 ≤ size a ∧ size a < 2 ^ 31) :
    Agrees (fun a ↦ keyCompareInt k (size a)) size k t :=
  ⟨fun a ha ↦ keyCompareInt_neg_iff hk hk' (hsize a ha).1 (hsize a ha).2,
    fun a ha ↦ keyCompareInt_pos_iff hk hk' (hsize a ha).1 (hsize a ha).2⟩

/-- Among user addresses the pointer callback orders a tree. -/
theorem agrees_keyComparePointer {α : Type} {start : α → ℤ} {k : ℤ} {t : BinaryTree α} (hk : 0 ≤ k)
    (hk' : k < 2 ^ 63) (hstart : ∀ a ∈ inorder t, 0 ≤ start a ∧ start a < 2 ^ 63) :
    Agrees (fun a ↦ keyComparePointer k (start a)) start k t :=
  ⟨fun a ha ↦ keyComparePointer_neg_iff hk hk' (hstart a ha).1 (hstart a ha).2,
    fun a ha ↦ keyComparePointer_pos_iff hk hk' (hstart a ha).1 (hstart a ha).2⟩

/-! ## Strings without regard to case -/

/-- What `KeyCompareString` sees of a string. -/
def fold (text : List UInt8) : List ℕ :=
  text.map fun c ↦ (toLower c).toNat

/-- A text in lower case. -/
def lowerText (text : List UInt8) : List UInt8 :=
  text.map toLower

theorem lowerText_of_fold {a b : List UInt8} (h : fold a = fold b) : lowerText a = lowerText b := by
  apply List.map_injective_iff.mpr (fun _ _ ↦ UInt8.toNat_inj.mp)
  simpa [lowerText, fold, Function.comp_def] using h

/-- The byte is no letter. -/
def Caseless (c : UInt8) : Prop :=
  ¬ (65 ≤ c ∧ c ≤ 90) ∧ ¬ (97 ≤ c ∧ c ≤ 122)

instance : DecidablePred Caseless :=
  fun c ↦ inferInstanceAs (Decidable (¬ (65 ≤ c ∧ c ≤ 90) ∧ ¬ (97 ≤ c ∧ c ≤ 122)))

theorem Caseless.eq_of_toLower {c d : UInt8} (hd : Caseless d)
    (h : (toLower c).toNat = (toLower d).toNat) : c = d := by
  obtain ⟨hupper, hlower⟩ := hd
  unfold toLower at h
  rw [← UInt8.toNat_inj]
  split_ifs at h with hc
  all_goals
    simp only [UInt8.le_iff_toNat_le, UInt8.toNat_add, UInt8.reduceToNat] at *
    omega

/-- Without letters, texts that are equal but for the case are equal. -/
theorem eq_of_fold {text other : List UInt8} (hother : ∀ c ∈ other, Caseless c)
    (h : fold text = fold other) : text = other := by
  induction other generalizing text with
  | nil => exact List.map_eq_nil_iff.mp h
  | cons d other ih =>
      cases text with
      | nil => cases h
      | cons c text =>
          obtain ⟨hhead, htail⟩ := List.cons.inj h
          obtain ⟨hd, hrest⟩ := List.forall_mem_cons.mp hother
          rw [hd.eq_of_toLower hhead, ih hrest htail]

theorem exists_append_of_fold {text first second : List UInt8}
    (h : fold text = fold (first ++ second)) :
    ∃ first' second', text = first' ++ second' ∧ fold first' = fold first ∧
      fold second' = fold second := by
  rw [fold, fold, List.map_append] at h
  exact List.map_eq_append_iff.mp h

theorem toLower_toLower (c : UInt8) : toLower (toLower c) = toLower c := by
  have hall : ∀ n : Fin 256, toLower (toLower (.ofNat n)) = toLower (.ofNat n) := by
    decide +kernel
  simpa using hall ⟨c.toNat, c.toNat_lt⟩

theorem fold_lowerText (text : List UInt8) : fold (lowerText text) = fold text := by
  simp [fold, lowerText, toLower_toLower]

theorem toLower_toNat_pos {c : UInt8} (hc : c ≠ 0) : 0 < (toLower c).toNat := by
  have hpos : 0 < c.toNat := Nat.pos_of_ne_zero fun h ↦ hc (UInt8.toNat_inj.mp h)
  unfold toLower
  split_ifs with hrange
  · have hhi : c.toNat ≤ 90 := UInt8.le_iff_toNat_le.mp hrange.2
    rw [UInt8.toNat_add, show (32 : UInt8).toNat = 32 from rfl]
    omega
  · exact hpos

/-- `strcasecmp` orders strings as their folded texts are ordered. -/
theorem strcasecmp_order {l r : List UInt8} (hl : 0 ∉ l) (hr : 0 ∉ r) :
    (strcasecmp l r < 0 ↔ fold l < fold r) ∧ (0 < strcasecmp l r ↔ fold r < fold l) := by
  induction l generalizing r with
  | nil =>
      cases r with
      | nil => simp [strcasecmp, fold]
      | cons d ds =>
          have hd := toLower_toNat_pos (c := d) (by rintro rfl; simp at hr)
          simp only [strcasecmp, fold, List.map_nil, List.map_cons, List.nil_lt_cons, iff_true,
            List.not_lt_nil, iff_false]
          omega
  | cons c cs ih =>
      cases r with
      | nil =>
          have hc := toLower_toNat_pos (c := c) (by rintro rfl; simp at hl)
          simp only [strcasecmp, fold, List.map_nil, List.map_cons, List.nil_lt_cons, iff_true,
            List.not_lt_nil, iff_false]
          omega
      | cons d ds =>
          have htail := ih (r := ds) (fun h ↦ hl (List.mem_cons_of_mem _ h))
            (fun h ↦ hr (List.mem_cons_of_mem _ h))
          simp only [strcasecmp, fold, List.map_cons, List.cons_lt_cons_iff] at htail ⊢
          split_ifs with heq
          · rw [heq]
            simpa [fold] using htail
          · have hne : (toLower c).toNat ≠ (toLower d).toNat := fun h ↦ heq (UInt8.toNat_inj.mp h)
            omega

theorem keyCompareString_neg_iff {l r : List UInt8} (hl : 0 ∉ l) (hr : 0 ∉ r) :
    keyCompareString l r < 0 ↔ fold l < fold r :=
  clampSign_neg_iff.trans (strcasecmp_order hl hr).1

theorem keyCompareString_pos_iff {l r : List UInt8} (hl : 0 ∉ l) (hr : 0 ∉ r) :
    0 < keyCompareString l r ↔ fold r < fold l :=
  clampSign_pos_iff.trans (strcasecmp_order hl hr).2

theorem keyCompareString_eq_zero_iff {l r : List UInt8} (hl : 0 ∉ l) (hr : 0 ∉ r) :
    keyCompareString l r = 0 ↔ fold l = fold r :=
  eq_zero_iff_of_order (keyCompareString_neg_iff hl hr) (keyCompareString_pos_iff hl hr)

/-- Among strings without `NUL` the string callback orders a tree by the folded texts. -/
theorem agrees_keyCompareString {α : Type} {text : α → List UInt8} {k : List UInt8}
    {t : BinaryTree α} (hk : 0 ∉ k) (htext : ∀ a ∈ inorder t, 0 ∉ text a) :
    Agrees (fun a ↦ keyCompareString k (text a)) (fun a ↦ fold (text a)) (fold k) t :=
  ⟨fun a ha ↦ keyCompareString_neg_iff hk (htext a ha),
    fun a ha ↦ keyCompareString_pos_iff hk (htext a ha)⟩

end HavokMud.BTree
