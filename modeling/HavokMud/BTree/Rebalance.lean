import HavokMud.BTree.Rotation

/-!
# Rebalancing the graph

`BalancedBTreeRebalance` ends on every graph that represents a finite tree, whatever its shape, and
leaves the graph of the rebalanced tree behind.
-/

namespace HavokMud.BTree

open BinaryTree SearchTree

variable {ι κ τ : Type} [DecidableEq ι] [DecidableEq τ]

/-- A shifted subtree is put back into its hole by relinking the parent of the old root. -/
theorem relink_shifted {h h₁ : Heap ι κ τ} {btree : τ} {c : Spine ι} {parent : Option ι} {x g : ι}
    {t t' : BinaryTree ι} (hctx : Context h btree c parent (some x)) (hx : x ∈ inorder t)
    (hnodup : (inorder t ++ c.elements).Nodup) (hsub : Subtree h₁ parent (some g) t')
    (hin : inorder t' = inorder t) (hframe : Frame btree (inorder t) h h₁)
    (hroot : h₁.root = h.root) :
    Context (h₁.relink btree (h₁.parent g) x (some g)) btree c parent (some g) ∧
      Subtree (h₁.relink btree (h₁.parent g) x (some g)) parent (some g) t' ∧
      Frame btree (inorder t ++ c.elements) h (h₁.relink btree (h₁.parent g) x (some g)) := by
  obtain ⟨-, hndc, hcross⟩ := List.nodup_append.mp hnodup
  have hct : ∀ y ∈ c.elements, y ∉ inorder t := fun y hy hmem ↦ hcross y hmem y hy rfl
  have hxc : x ∉ c.elements := fun hmem ↦ hct x hmem hx
  obtain ⟨l', r', rfl⟩ := hsub.some_node
  have hpg : h₁.parent g = parent := hsub.2.1
  have hctx₁ : Context h₁ btree c parent (some x) :=
    hctx.congr (by rw [hroot]) (fun y hy ↦ hframe.left y (hct y hy))
      (fun y hy ↦ hframe.right y (hct y hy)) (fun y hy ↦ hframe.parent y (hct y hy))
  have hout : ∀ y ∉ c.elements, parent ≠ some y := by
    intro y hy heq
    rw [heq] at hctx
    exact hy hctx.parent_mem
  rw [hpg]
  refine ⟨hctx₁.relink hndc hxc (some g), ?_, ?_⟩
  · have htc : ∀ y ∈ inorder (.node g l' r'), parent ≠ some y := fun y hy ↦
      hout y fun hmem ↦ hct y hmem (hin ▸ hy)
    exact hsub.congr (fun y hy ↦ Heap.left_relink_of_ne _ _ _ _ _ _ (htc y hy))
      (fun y hy ↦ Heap.right_relink_of_ne _ _ _ _ _ _ (htc y hy)) (fun y _ ↦ by simp)
  · refine (hframe.mono (List.subset_append_left _ _)).trans ?_
    refine ⟨fun y hy ↦ ?_, fun y hy ↦ ?_, fun y hy ↦ by simp, by simp, by simp, by simp,
      fun other hne ↦ Heap.root_relink_of_ne _ _ _ _ _ _ hne⟩
    · rw [List.mem_append, not_or] at hy
      exact Heap.left_relink_of_ne _ _ _ _ _ _ (hout y hy.2)
    · rw [List.mem_append, not_or] at hy
      exact Heap.right_relink_of_ne _ _ _ _ _ _ (hout y hy.2)

/-- The loop levels the root.  While it runs, the heavier side shrinks as fast as the fuel. -/
theorem rebalanceLoop_spec {h : Heap ι κ τ} {btree : τ} {c : Spine ι} {parent : Option ι} {x : ι}
    {l r : BinaryTree ι} {fuel : ℕ} (hctx : Context h btree c parent (some x))
    (hsub : Subtree h parent (some x) (.node x l r))
    (hnodup : (inorder (.node x l r) ++ c.elements).Nodup)
    (hl : l.numNodes ≤ fuel) (hr : r.numNodes ≤ fuel) :
    ∃ h' x' l' r', rebalanceLoop btree (fuel + 1) h x = some (h', x') ∧
      levelRoot fuel (.node x l r) = .node x' l' r' ∧
      Context h' btree c parent (some x') ∧ Subtree h' parent (some x') (.node x' l' r') ∧
      Frame btree (inorder (.node x l r) ++ c.elements) h h' := by
  induction fuel generalizing h x l r with
  | zero =>
      have hwl := balancedBTreeWeight_eq hsub.2.2.1 (hl.trans (Nat.zero_le 1))
      have hwr := balancedBTreeWeight_eq hsub.2.2.2 (hr.trans (Nat.zero_le 1))
      refine ⟨h, x, l, r, ?_, rfl, hctx, hsub, Frame.refl _ _ _⟩
      simp only [rebalanceLoop, hwl, hwr, Option.bind_eq_bind, Option.bind_some]
      rw [if_neg (by omega), if_neg (by omega)]
  | succ fuel ih =>
      obtain ⟨hndt, -, -⟩ := List.nodup_append.mp hnodup
      have hwl := balancedBTreeWeight_eq hsub.2.2.1 (hl.trans (Nat.le_succ _))
      have hwr := balancedBTreeWeight_eq hsub.2.2.2 (hr.trans (Nat.le_succ _))
      by_cases hleft : r.numNodes + 1 < l.numNodes
      · cases hpop : popGreatest l with
        | none =>
            obtain rfl := popGreatest_eq_none.mp hpop
            simp at hleft
        | some pair =>
            obtain ⟨g, l₁⟩ := pair
            have hsize := numNodes_popGreatest hpop
            have hfind := balancedBTreeFindGreatest_eq hsub.2.2.1 (hl.trans (Nat.le_succ _))
            obtain ⟨h₁, hshift, hsub₁, hframe₁, hroot₁⟩ := shiftRight_spec btree hsub hndt hpop
            have hin : inorder (.node g l₁ (.node x .nil r)) = inorder (.node x l r) := by
              simp [inorder_popGreatest hpop]
            obtain ⟨hctx₂, hsub₂, hframe₂⟩ :=
              relink_shifted hctx (by simp) hnodup hsub₁ hin hframe₁ hroot₁
            obtain ⟨h', x', l', r', hrun, hlevel, hctx', hsub', hframe'⟩ :=
              ih hctx₂ hsub₂ (by rw [hin]; exact hnodup) (by omega)
                (by simp only [numNodes]; omega)
            rw [hin] at hframe'
            refine ⟨h', x', l', r', ?_, ?_, hctx', hsub', hframe₂.trans hframe'⟩
            · rw [rebalanceLoop]
              simp only [hwl, hwr, Option.bind_eq_bind, Option.bind_some]
              rw [if_pos (by omega)]
              simp [hfind, hpop, hshift, hrun]
            · simpa [levelRoot, hleft, hpop] using hlevel
      · by_cases hright : l.numNodes + 1 < r.numNodes
        · cases hpop : popLeast r with
          | none =>
              obtain rfl := popLeast_eq_none.mp hpop
              simp at hright
          | some pair =>
              obtain ⟨m, r₁⟩ := pair
              have hsize := numNodes_popLeast hpop
              have hfind := balancedBTreeFindLeast_eq hsub.2.2.2 (hr.trans (Nat.le_succ _))
              obtain ⟨h₁, hshift, hsub₁, hframe₁, hroot₁⟩ := shiftLeft_spec btree hsub hndt hpop
              have hin : inorder (.node m (.node x l .nil) r₁) = inorder (.node x l r) := by
                simp [inorder_popLeast hpop]
              obtain ⟨hctx₂, hsub₂, hframe₂⟩ :=
                relink_shifted hctx (by simp) hnodup hsub₁ hin hframe₁ hroot₁
              obtain ⟨h', x', l', r', hrun, hlevel, hctx', hsub', hframe'⟩ :=
                ih hctx₂ hsub₂ (by rw [hin]; exact hnodup) (by simp only [numNodes]; omega)
                  (by omega)
              rw [hin] at hframe'
              refine ⟨h', x', l', r', ?_, ?_, hctx', hsub', hframe₂.trans hframe'⟩
              · rw [rebalanceLoop]
                simp only [hwl, hwr, Option.bind_eq_bind, Option.bind_some]
                rw [if_neg (by omega), if_pos (by omega)]
                simp [hfind, hpop, hshift, hrun]
              · simpa [levelRoot, hleft, hright, hpop] using hlevel
        · refine ⟨h, x, l, r, ?_, by simp [levelRoot, hleft, hright], hctx, hsub,
            Frame.refl _ _ _⟩
          rw [rebalanceLoop]
          simp only [hwl, hwr, Option.bind_eq_bind, Option.bind_some]
          rw [if_neg (by omega), if_neg (by omega)]

/-- With fuel for every item, rebalancing a subtree in its hole ends and leaves the rebalanced tree
there. -/
theorem balancedBTreeRebalance_hole {h : Heap ι κ τ} {btree : τ} {c : Spine ι}
    {parent p : Option ι} {t : BinaryTree ι} {fuel : ℕ} (hctx : Context h btree c parent p)
    (hsub : Subtree h parent p t) (hnodup : (inorder t ++ c.elements).Nodup)
    (hfuel : t.numNodes ≤ fuel) :
    ∃ h' p', balancedBTreeRebalance btree fuel h p = some h' ∧ Context h' btree c parent p' ∧
      Subtree h' parent p' (rebalance fuel t) ∧
      Frame btree (inorder t ++ c.elements) h h' := by
  induction fuel generalizing h c parent p t with
  | zero =>
      obtain rfl : t = .nil := by
        rw [← inorder_eq_nil, ← List.length_eq_zero_iff, length_inorder]
        omega
      obtain rfl := subtree_nil.mp hsub
      exact ⟨h, none, rfl, hctx, rfl, Frame.refl _ _ _⟩
  | succ fuel ih =>
      cases t with
      | nil =>
          obtain rfl := subtree_nil.mp hsub
          refine ⟨h, none, rfl, hctx, ?_, Frame.refl _ _ _⟩
          cases fuel <;> rfl
      | node x l r =>
          obtain rfl := hsub.1
          simp only [numNodes] at hfuel
          obtain ⟨h₁, x', l', r', hloop, hlevel, hctx₁, hsub₁, hframe₁⟩ :=
            rebalanceLoop_spec hctx hsub hnodup (by omega : l.numNodes ≤ fuel) (by omega)
          have hin : inorder (.node x' l' r') = inorder (.node x l r) := by
            rw [← hlevel, inorder_levelRoot]
          have hsize : l'.numNodes + r'.numNodes = l.numNodes + r.numNodes := by
            have := congrArg List.length hin
            simp only [length_inorder, numNodes] at this
            omega
          have hnodup₁ : (inorder (.node x' l' r') ++ c.elements).Nodup := by
            rw [hin]; exact hnodup
          -- the left subtree, seen in the hole to the left of the new root
          have hctxl : Context h₁ btree (.left x' r' c) (some x') (h₁.left x') :=
            ⟨rfl, rfl, hsub₁.2.2.2, by rw [hsub₁.2.1]; exact hctx₁⟩
          have hperml : (inorder l' ++ (Spine.left x' r' c).elements).Perm
              (inorder (.node x' l' r') ++ c.elements) := by
            simp [Spine.elements]
          obtain ⟨h₂, p₂, hrun₂, hctx₂, hsub₂, hframe₂⟩ :=
            ih hctxl hsub₁.2.2.1 (hperml.nodup_iff.mpr hnodup₁) (by omega)
          obtain ⟨-, hp₂, hr₂, hup₂⟩ := hctx₂
          -- the right subtree, seen in the hole to the right of the new root
          have hctxr : Context h₂ btree (.right x' (rebalance fuel l') c) (some x')
              (h₂.right x') := ⟨rfl, rfl, by rw [hp₂]; exact hsub₂, hup₂⟩
          have hpermr : (inorder r' ++ (Spine.right x' (rebalance fuel l') c).elements).Perm
              (inorder (.node x' l' r') ++ c.elements) := by
            have hplug := Spine.inorder_plug_perm (Spine.right x' (rebalance fuel l') c) r'
            rw [Spine.plug] at hplug
            have hnode := Spine.inorder_plug_perm c (.node x' (rebalance fuel l') r')
            rw [inorder_node, inorder_rebalance] at hnode
            exact hplug.symm.trans hnode
          obtain ⟨h₃, p₃, hrun₃, hctx₃, hsub₃, hframe₃⟩ :=
            ih hctxr hr₂ (hpermr.nodup_iff.mpr hnodup₁) (by omega)
          obtain ⟨-, hp₃, hl₃, hup₃⟩ := hctx₃
          obtain rfl := hctx.parent_unique hup₃
          refine ⟨h₃, some x', ?_, hup₃, ?_, ?_⟩
          · simp only [balancedBTreeRebalance, hloop, Option.bind_eq_bind, Option.bind_some, hrun₂,
              hrun₃]
          · simp only [rebalance, hlevel]
            exact ⟨rfl, rfl, hl₃, by rw [hp₃]; exact hsub₃⟩
          · rw [← hin]
            rw [← hin] at hframe₁
            exact (hframe₁.trans (hframe₂.mono hperml.subset)).trans (hframe₃.mono hpermr.subset)

/-- `BalancedBTreeRebalance` of a whole tree. -/
theorem balancedBTreeRebalance_spec {h : Heap ι κ τ} {btree : τ} {t : BinaryTree ι} {fuel : ℕ}
    (hrep : Represents h btree t) (hfuel : t.numNodes ≤ fuel) :
    ∃ h', balancedBTreeRebalance btree fuel h (h.root btree) = some h' ∧
      Represents h' btree (balance t) ∧ Frame btree (inorder t) h h' := by
  have hctx : Context h btree .top none (h.root btree) := ⟨rfl, rfl⟩
  have hnodup : (inorder t ++ (Spine.top : Spine ι).elements).Nodup := by
    simpa [Spine.elements] using hrep.nodup
  obtain ⟨h', p', hrun, ⟨-, hroot⟩, hsub, hframe⟩ :=
    balancedBTreeRebalance_hole hctx hrep.links hnodup hfuel
  rw [rebalance_eq_balance hfuel] at hsub
  refine ⟨h', hrun, ⟨by rw [hroot]; exact hsub, by simpa using hrep.nodup⟩, ?_⟩
  simpa [Spine.elements] using hframe

end HavokMud.BTree
