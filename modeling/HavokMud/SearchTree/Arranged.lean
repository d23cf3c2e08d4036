import HavokMud.SearchTree.Index

/-!
# Trees with equal ranks

A tree may hold several elements of one rank, where the elements from left to right never decrease.
A search then finds some element of the rank searched for.
-/

namespace HavokMud.SearchTree

open BinaryTree

variable {α ω : Type*} [LinearOrder ω]

/-- The ranks of the elements from left to right never decrease. -/
def Arranged (rank : α → ω) (t : BinaryTree α) : Prop :=
  (inorder t).Pairwise fun x y ↦ rank x ≤ rank y

variable {rank rank' : α → ω} {key : ω} {probe : α → ℤ} {t : BinaryTree α} {a : α}

theorem arranged_nil : Arranged rank (.nil : BinaryTree α) :=
  List.Pairwise.nil

theorem arranged_node_iff {l r : BinaryTree α} :
    Arranged rank (.node a l r) ↔ Arranged rank l ∧ Arranged rank r ∧
      (∀ x ∈ inorder l, rank x ≤ rank a) ∧ (∀ x ∈ inorder r, rank a ≤ rank x) := by
  unfold Arranged
  simp only [inorder_node, List.pairwise_append, List.pairwise_cons, List.mem_cons]
  constructor
  · rintro ⟨hl, ⟨har, hr⟩, hlr⟩
    exact ⟨hl, hr, fun x hx ↦ hlr x hx a (.inl rfl), har⟩
  · rintro ⟨hl, hr, hla, har⟩
    refine ⟨hl, ⟨har, hr⟩, ?_⟩
    rintro x hx y (rfl | hy)
    · exact hla x hx
    · exact (hla x hx).trans (har y hy)

theorem Arranged.congr (harranged : Arranged rank t) (hrank : ∀ x ∈ inorder t, rank' x = rank x) :
    Arranged rank' t := by
  refine harranged.imp_of_mem ?_
  intro x y hx hy hle
  rw [hrank x hx, hrank y hy]
  exact hle

theorem Sorted.arranged (hsorted : Sorted rank t) : Arranged rank t :=
  hsorted.imp fun hlt ↦ hlt.le

theorem Agrees.mono {s : BinaryTree α} (hagrees : Agrees probe rank key t)
    (hmem : ∀ x ∈ inorder s, x ∈ inorder t) : Agrees probe rank key s :=
  ⟨fun x hx ↦ hagrees.neg_iff x (hmem x hx), fun x hx ↦ hagrees.pos_iff x (hmem x hx)⟩

/-- The search finds an element of the rank searched for, if there is one. -/
theorem Arranged.find_eq_none_iff (harranged : Arranged rank t)
    (hagrees : Agrees probe rank key t) :
    find probe t = none ↔ ∀ x ∈ inorder t, rank x ≠ key := by
  induction t with
  | nil => simp [find]
  | node b l r ihl ihr =>
      obtain ⟨hl, hr, hlb, hbr⟩ := arranged_node_iff.mp harranged
      have hb : b ∈ inorder (.node b l r) := by simp
      have ihl := ihl hl (hagrees.mono fun x hx ↦ by simp [hx])
      have ihr := ihr hr (hagrees.mono fun x hx ↦ by simp [hx])
      have hzero_iff := hagrees.eq_zero_iff hb
      have hneg_iff := hagrees.neg_iff b hb
      have hpos_iff := hagrees.pos_iff b hb
      unfold find
      split_ifs with hzero hneg
      · exact iff_of_false (by simp) fun h ↦ h b hb (hzero_iff.mp hzero)
      · have hlt := hneg_iff.mp hneg
        rw [ihl]
        constructor
        · intro h x hx
          rw [inorder_node, List.mem_append, List.mem_cons] at hx
          rcases hx with hx | rfl | hx
          · exact h x hx
          · exact hlt.ne'
          · exact (hlt.trans_le (hbr x hx)).ne'
        · exact fun h x hx ↦ h x (by simp [hx])
      · have hlt := hpos_iff.mp (by omega)
        rw [ihr]
        constructor
        · intro h x hx
          rw [inorder_node, List.mem_append, List.mem_cons] at hx
          rcases hx with hx | rfl | hx
          · exact ((hlb x hx).trans_lt hlt).ne
          · exact hlt.ne
          · exact h x hx
        · exact fun h x hx ↦ h x (by simp [hx])

theorem find_mem_rank (hagrees : Agrees probe rank key t) (hfind : find probe t = some a) :
    a ∈ inorder t ∧ rank a = key := by
  obtain ⟨ha, hzero⟩ := find_some hfind
  exact ⟨ha, (hagrees.eq_zero_iff ha).mp hzero⟩

/-- A new leaf keeps the elements arranged, also next to elements of its rank. -/
theorem Arranged.insert (harranged : Arranged rank t) (hagrees : Agrees probe rank (rank a) t) :
    Arranged rank (insert probe a t) := by
  induction t with
  | nil => simp [SearchTree.insert, Arranged]
  | node b l r ihl ihr =>
      obtain ⟨hl, hr, hlb, hbr⟩ := arranged_node_iff.mp harranged
      have hb : b ∈ inorder (.node b l r) := by simp
      have ihl := ihl hl (hagrees.mono fun x hx ↦ by simp [hx])
      have ihr := ihr hr (hagrees.mono fun x hx ↦ by simp [hx])
      have hneg_iff := hagrees.neg_iff b hb
      unfold SearchTree.insert
      split_ifs with hneg
      · refine arranged_node_iff.mpr ⟨ihl, hr, ?_, hbr⟩
        intro x hx
        rcases mem_inorder_insert.mp hx with rfl | hx
        · exact (hneg_iff.mp hneg).le
        · exact hlb x hx
      · refine arranged_node_iff.mpr ⟨hl, ihr, hlb, ?_⟩
        intro x hx
        rcases mem_inorder_insert.mp hx with rfl | hx
        · exact not_lt.mp fun hlt ↦ hneg (hneg_iff.mpr hlt)
        · exact hbr x hx

theorem Arranged.balance (harranged : Arranged rank t) : Arranged rank (balance t) := by
  rw [Arranged, inorder_balance]
  exact harranged

theorem Arranged.remove [DecidableEq α] (harranged : Arranged rank t) (hnodup : (inorder t).Nodup)
    (a : α) : Arranged rank (remove a t) := by
  rw [Arranged, inorder_remove hnodup]
  exact harranged.sublist List.erase_sublist

end HavokMud.SearchTree
