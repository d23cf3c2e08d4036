import HavokMud.BTree.Runs
import HavokMud.BTree.Keys

/-!
# Prefix lookup

With `alternate = TRUE` a tree of strings is searched by `KeyComparePartialString`, which looks at
as many characters as the key searched for has.  Strings in order are in order up to any length, so
the search meets a string with the prefix if there is one.  The length is kept in an `int`.
-/

namespace HavokMud.BTree

open BinaryTree SearchTree

/-- `strncasecmp`. -/
def strncasecmp (l r : List UInt8) (n : ℕ) : ℤ :=
  strcasecmp (l.take n) (r.take n)

/-- The length of a string as an `int`, which `strncasecmp` takes as a `size_t`. -/
def partialLength (l : List UInt8) : ℕ :=
  ((BitVec.ofNat 32 l.length).signExtend 64).toNat

/-- `KeyComparePartialString`. -/
def keyComparePartialString (l r : List UInt8) : ℤ :=
  clampSign (strncasecmp l r (partialLength l))

variable {ι τ : Type} {h : Heap ι (List UInt8) τ} {btree : τ} {t : BinaryTree ι}
  {q l r : List UInt8}
  {n : ℕ}

/-! ## The comparison -/

theorem strncasecmp_order (hl : 0 ∉ l) (hr : 0 ∉ r) (n : ℕ) :
    (strncasecmp l r n < 0 ↔ (fold l).take n < (fold r).take n) ∧
      (0 < strncasecmp l r n ↔ (fold r).take n < (fold l).take n) := by
  have horder := strcasecmp_order (l := l.take n) (r := r.take n)
    (fun hmem ↦ hl (List.mem_of_mem_take hmem)) (fun hmem ↦ hr (List.mem_of_mem_take hmem))
  simpa [strncasecmp, fold, List.map_take] using horder

/-- What is in order up to some length is in order. -/
theorem lt_of_take_lt_take {a b : List ℕ} {n : ℕ} (h : a.take n < b.take n) : a < b := by
  induction n generalizing a b with
  | zero => simp at h
  | succ n ih =>
      cases b with
      | nil => simp at h
      | cons y b =>
          cases a with
          | nil => exact List.nil_lt_cons y b
          | cons x a =>
              rw [List.take_succ_cons, List.take_succ_cons, List.cons_lt_cons_iff] at h
              rw [List.cons_lt_cons_iff]
              exact h.imp_right fun ⟨hxy, hab⟩ ↦ ⟨hxy, ih hab⟩

theorem partialLength_eq (hq : q.length < 2 ^ 31) : partialLength q = q.length := by
  unfold partialLength
  rw [BitVec.toNat_signExtend, BitVec.msb_eq_decide]
  simp
  split_ifs <;> omega

/-- The length of a string that is too long for an `int` is not kept. -/
theorem partialLength_ne (hq : 2 ^ 31 ≤ q.length) (hq' : q.length < 2 ^ 63) :
    partialLength q ≠ q.length := by
  unfold partialLength
  rw [BitVec.toNat_signExtend, BitVec.msb_eq_decide]
  simp
  split_ifs <;> omega

/-! ## The search -/

/-- The string begins with the query, but for the case of the letters. -/
def StartsWith (q text : List UInt8) : Prop :=
  fold q <+: fold text

instance (q text : List UInt8) : Decidable (StartsWith q text) :=
  inferInstanceAs (Decidable (_ <+: _))

/-- The search for a query finds a string that begins with it where there is one. -/
def FindsPrefix (q : List UInt8) : Prop :=
  ∀ (ι τ : Type) [DecidableEq ι] [DecidableEq τ] (h : Heap ι (List UInt8) τ) (btree : τ)
    (items : List ι) (t : BinaryTree ι), Holds keyCompareString h btree items t →
    (∀ a ∈ items, 0 ∉ h.key a) →
    ∀ fuel, items.length ≤ fuel →
      ∃ found, balancedBTreeFind keyComparePartialString h fuel btree q = some found ∧
        (found.isSome ↔ ∃ a ∈ items, StartsWith q (h.key a)) ∧
        ∀ a, found = some a → a ∈ items ∧ StartsWith q (h.key a)

theorem keyComparePartialString_order (hq : 0 ∉ q) (hr : 0 ∉ r) :
    (keyComparePartialString q r < 0 ↔
        (fold q).take (partialLength q) < (fold r).take (partialLength q)) ∧
      (0 < keyComparePartialString q r ↔
        (fold r).take (partialLength q) < (fold q).take (partialLength q)) := by
  obtain ⟨hneg, hpos⟩ := strncasecmp_order hq hr (partialLength q)
  exact ⟨clampSign_neg_iff.trans hneg, clampSign_pos_iff.trans hpos⟩

/-- The comparison up to a length falls along strings that are in order. -/
theorem falling_of_fold_le (hq : 0 ∉ q) {items : List ι} (hitems : ∀ a ∈ items, 0 ∉ h.key a)
    (hsorted : items.Pairwise fun a b ↦ fold (h.key a) ≤ fold (h.key b)) :
    Falling (probe keyComparePartialString h q) items := by
  refine hsorted.imp_of_mem ?_
  intro a b ha hb hab
  obtain ⟨hneg, hpos⟩ := keyComparePartialString_order hq (hitems a ha)
  obtain ⟨hneg', hpos'⟩ := keyComparePartialString_order hq (hitems b hb)
  simp only [probe]
  generalize partialLength q = n at hneg hpos hneg' hpos'
  have hle : (fold (h.key a)).take n ≤ (fold (h.key b)).take n :=
    not_lt.mp fun hlt ↦ not_lt.mpr hab (lt_of_take_lt_take hlt)
  constructor
  · intro hprobe
    have hqa : (fold q).take n ≤ (fold (h.key a)).take n :=
      not_lt.mp (mt hpos.mpr (not_lt.mpr hprobe))
    exact not_lt.mp (mt hpos'.mp (not_lt.mpr (hqa.trans hle)))
  · intro hprobe
    exact hneg'.mpr ((hneg.mp hprobe).trans_le hle)

theorem falling_keyComparePartialString (hq : 0 ∉ q) {items : List ι}
    (hitems : ∀ a ∈ items, 0 ∉ h.key a)
    (hsorted : items.Pairwise fun a b ↦ keyCompareString (h.key a) (h.key b) < 0) :
    Falling (probe keyComparePartialString h q) items := by
  refine falling_of_fold_le hq hitems (hsorted.imp_of_mem ?_)
  intro a b ha hb hab
  exact ((keyCompareString_neg_iff (hitems a ha) (hitems b hb)).mp hab).le

theorem keyComparePartialString_eq_zero_iff (hq : 0 ∉ q) (hr : 0 ∉ r)
    (hlength : partialLength q = q.length) :
    keyComparePartialString q r = 0 ↔ StartsWith q r := by
  obtain ⟨hneg, hpos⟩ := keyComparePartialString_order hq hr
  have hfold : (fold q).length = q.length := List.length_map _
  rw [hlength, List.take_of_length_le hfold.le] at hneg hpos
  rw [StartsWith, List.prefix_iff_eq_take, hfold]
  exact eq_zero_iff_of_order hneg hpos

/-- Where the comparison falls along the items, the search finds an item that compares equal, if
there is one. -/
theorem find_of_falling {κ : Type} {keyCompare : κ → κ → ℤ} {h : Heap ι κ τ}
    (hrep : Represents h btree t) {fuel : ℕ} (hsize : t.numNodes ≤ fuel) {key : κ}
    (hfalling : Falling (probe keyCompare h key) (inorder t)) :
    ∃ found, balancedBTreeFind keyCompare h fuel btree key = some found ∧
      (found.isSome ↔ ∃ a ∈ inorder t, keyCompare key (h.key a) = 0) ∧
      ∀ a, found = some a → a ∈ inorder t ∧ keyCompare key (h.key a) = 0 := by
  refine ⟨_, balancedBTreeFind_eq hrep hsize key, ?_, fun a ha ↦ find_some ha⟩
  rw [← not_iff_not, Option.not_isSome_iff_eq_none, hfalling.find_eq_none_iff]
  constructor
  · rintro hnone ⟨a, ha, hzero⟩
    exact hnone a ha hzero
  · exact fun hnone a ha hzero ↦ hnone ⟨a, ha, hzero⟩

/-- A query whose length an `int` holds. -/
theorem findsPrefix_of_lt (hq : 0 ∉ q) (hlt : q.length < 2 ^ 31) : FindsPrefix q := by
  intro ι τ _ _ h btree items t hinv hitems fuel hfuel
  have hmem : ∀ a, a ∈ inorder t ↔ a ∈ items := fun a ↦ hinv.perm.mem_iff
  have hzero : ∀ a ∈ inorder t, keyComparePartialString q (h.key a) = 0 ↔ StartsWith q (h.key a) :=
    fun a ha ↦ keyComparePartialString_eq_zero_iff hq (hitems a ((hmem a).mp ha))
      (partialLength_eq hlt)
  have hsize : t.numNodes ≤ fuel := hinv.numNodes_eq.trans_le hfuel
  obtain ⟨found, hfind, hsome, hfound⟩ := find_of_falling hinv.represents hsize
    (falling_keyComparePartialString hq (fun a ha ↦ hitems a ((hmem a).mp ha)) hinv.sorted)
  refine ⟨found, hfind, hsome.trans ?_, fun a ha ↦ ?_⟩
  · refine exists_congr fun a ↦ ?_
    rw [← hmem a]
    exact and_congr_right fun ha ↦ hzero a ha
  · obtain ⟨ha, heq⟩ := hfound a ha
    exact ⟨(hmem a).mp ha, (hzero a ha).mp heq⟩

/-! ## Long queries -/

/-- A tree of one string. -/
def oneKey (text : List UInt8) : Heap Unit (List UInt8) Unit where
  left _ := none
  right _ := none
  parent _ := none
  key _ := text
  btree _ := some ()
  visited _ := 0
  root _ := some ()

theorem holds_oneKey (text : List UInt8) :
    Holds keyCompareString (oneKey text) () [()] (.node () .nil .nil) where
  represents := ⟨⟨rfl, rfl, rfl, rfl⟩, by simp⟩
  perm := List.Perm.refl _
  sorted := by simp
  owner _ _ := rfl

theorem find_oneKey (text q : List UInt8) :
    balancedBTreeFind keyComparePartialString (oneKey text) 1 () q =
      some (if keyComparePartialString q text = 0 then some () else none) := by
  have hsize : (BinaryTree.node () .nil .nil).numNodes ≤ 1 := by simp [numNodes]
  rw [balancedBTreeFind_eq (holds_oneKey text).represents hsize]
  refine congrArg some ?_
  change (if keyComparePartialString q text = 0 then some () else
    if keyComparePartialString q text < 0 then none else none) = _
  rw [ite_self]

theorem FindsPrefix.oneKey (hfinds : FindsPrefix q) (hr : 0 ∉ r) :
    keyComparePartialString q r = 0 ↔ StartsWith q r := by
  obtain ⟨found, hfind, hsome, -⟩ := hfinds Unit Unit (BTree.oneKey r) () [()] _ (holds_oneKey r)
    (fun _ _ ↦ hr) 1 le_rfl
  rw [find_oneKey] at hfind
  rw [← Option.some.inj hfind] at hsome
  simpa [BTree.oneKey] using hsome

/-- The keys are compared up to another length than that of the query. -/
theorem not_findsPrefix (hq : 0 ∉ q) (hlength : partialLength q ≠ q.length) : ¬ FindsPrefix q := by
  intro hfinds
  rcases Nat.lt_or_gt_of_ne hlength with hlt | hgt
  · -- the beginning of the query is taken for a string that begins with it
    have hr : 0 ∉ q.take (partialLength q) := fun hmem ↦ hq (List.mem_of_mem_take hmem)
    obtain ⟨hneg, hpos⟩ := keyComparePartialString_order hq hr
    rw [fold, fold, ← List.map_take, ← List.map_take, List.take_take, min_self] at hneg hpos
    have hzero : keyComparePartialString q (q.take (partialLength q)) = 0 :=
      (eq_zero_iff_of_order hneg hpos).mpr rfl
    have hle := ((hfinds.oneKey hr).mp hzero).length_le
    simp only [fold, List.length_map, List.length_take] at hle
    omega
  · -- a string that begins with the query is not taken for one
    have hr : 0 ∉ q ++ [97] := by simpa using hq
    have hstarts : StartsWith q (q ++ [97]) := by
      rw [StartsWith, fold, fold, List.map_append]
      exact List.prefix_append _ _
    obtain ⟨hneg, hpos⟩ := keyComparePartialString_order hq hr
    have heq := (eq_zero_iff_of_order hneg hpos).mp ((hfinds.oneKey hr).mpr hstarts)
    rw [List.take_of_length_le (by simp [fold]; omega),
      List.take_of_length_le (by simp [fold]; omega)] at heq
    simpa [fold] using congrArg List.length heq

/-- Prefix lookup is complete for the queries whose length an `int` holds. -/
theorem findsPrefix_iff (q : List UInt8) (hq : 0 ∉ q) (hmemory : q.length < 2 ^ 63) :
    FindsPrefix q ↔ q.length < 2 ^ 31 := by
  constructor
  · intro hfinds
    by_contra hge
    exact not_findsPrefix hq (partialLength_ne (not_lt.mp hge) hmemory) hfinds
  · exact findsPrefix_of_lt hq

theorem findsPrefix_iff_swo : FindsPrefix [115, 119, 111] :=
  (findsPrefix_iff [115, 119, 111] (by decide) (by decide)).mpr (by decide)

/-- A query of `2 ^ 31` letters. -/
theorem long_query_not_found : ¬ FindsPrefix (List.replicate (2 ^ 31) 97) := by
  have hq : 0 ∉ List.replicate (2 ^ 31) (97 : UInt8) :=
    fun hmem ↦ absurd (List.eq_of_mem_replicate hmem) (by decide)
  refine not_findsPrefix hq (partialLength_ne ?_ ?_)
  · rw [List.length_replicate]
  · rw [List.length_replicate]
    norm_num

end HavokMud.BTree
