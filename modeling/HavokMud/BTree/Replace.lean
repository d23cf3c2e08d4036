import HavokMud.BTree.Rotation

/-!
# Taking an item off the graph

`BalancedBTreeReplace` puts the in-order neighbour of an item, or nothing when the item is a leaf,
into the item's place.  On the represented tree this is the removal of the item.
-/

namespace HavokMud.BTree

open BinaryTree SearchTree

variable {ι κ τ : Type} [DecidableEq ι]

/-- The edits of `takeLinks` when the replacement is the left child of the item. -/
def takenChild (h : Heap ι κ τ) (x g : ι) : Heap ι κ τ :=
  (h.setRight g (h.right x)).setParentOf (h.right x) (some g)

/-- The edits of `takeLinks` when the replacement hangs under `q`, on its right. -/
def takenDeep (h : Heap ι κ τ) (x g q : ι) : Heap ι κ τ :=
  (((((h.setRight q (h.left g)).setParentOf (h.left g) (some q)).setRight g (h.right x)).setParentOf
    (h.right x) (some g)).setLeft g (h.left x)).setParentOf (h.left x) (some g)

theorem takeLinks_child {h : Heap ι κ τ} {x g : ι} (hparent : h.parent g = some x)
    (hright : h.right x ≠ some g) (hleft : h.left x = some g) :
    takeLinks h x g = some (takenChild h x g) := by
  simp [takeLinks, takenChild, hparent, hright, hleft]

theorem takeLinks_deep {h : Heap ι κ τ} {x g q : ι} (hparent : h.parent g = some q) (hq : q ≠ x)
    (hleft : h.left q ≠ some g) (hright : h.right q = some g) :
    takeLinks h x g = some (takenDeep h x g q) := by
  simp [takeLinks, takenDeep, hparent, hq, hq.symm, hleft, hright]

/-- The replacement from the left takes over both subtrees of the item. -/
theorem takeLinks_greatest {h : Heap ι κ τ} (btree : τ) {parent : Option ι} {x g : ι}
    {l l' r : BinaryTree ι} (hsub : Subtree h parent (some x) (.node x l r))
    (hnodup : (inorder (.node x l r)).Nodup) (hpop : popGreatest l = some (g, l')) :
    ∃ h', takeLinks h x g = some h' ∧ h'.parent x = parent ∧
      Subtree h' (some g) (h'.left g) l' ∧ Subtree h' (some g) (h'.right g) r ∧
      Frame btree (inorder (.node x l r)) h h' ∧ h'.root = h.root := by
  obtain ⟨-, hpx, hl, hr⟩ := hsub
  obtain ⟨hgl, hl'l, hlx, hlr, hl'g, hrg, hxr⟩ := apart_of_popGreatest hnodup hpop
  have hgx : g ≠ x := hlx g hgl
  obtain ⟨hndl, hndr, -⟩ := List.nodup_append.mp hnodup
  rw [List.nodup_cons] at hndr
  obtain ⟨-, hndr⟩ := hndr
  -- the root of the right subtree is the only record outside the left one whose parent changes
  have hrightx : ∀ y ∉ inorder r, h.right x ≠ some y := by
    intro y hy heq
    rw [heq] at hr
    exact hy hr.root_mem
  cases l with
  | nil => simp [popGreatest] at hpop
  | node b lb rb =>
      obtain ⟨hleftx, hpb, hlb, hrb⟩ := hl
      simp only [popGreatest] at hpop
      cases hpoprb : popGreatest rb with
      | none =>
          obtain ⟨rfl, rfl⟩ : b = g ∧ lb = l' := by simpa [hpoprb] using hpop
          refine ⟨_, takeLinks_child hpb (hrightx b (hlr b hgl)) hleftx, ?_, ?_, ?_, ?_, ?_⟩
          · simp [takenChild, hrightx x hxr, hpx]
          · have hleft : (takenChild h x b).left b = h.left b := by simp [takenChild]
            rw [hleft]
            refine hlb.congr (fun y hy ↦ ?_) (fun y hy ↦ ?_) (fun y hy ↦ ?_)
            · simp [takenChild]
            · simp [takenChild, hl'g y hy]
            · simp [takenChild, hrightx y (hlr y (hl'l y hy))]
          · have hright : (takenChild h x b).right b = h.right x := by simp [takenChild]
            rw [hright]
            refine hr.reparent hndr (fun y hy ↦ ?_) (fun y hy ↦ ?_) (fun y hy ↦ ?_)
              (fun y hy hne ↦ ?_)
            · simp [takenChild]
            · simp [takenChild, hrg y hy]
            · simp [takenChild, hy]
            · simp [takenChild, hne]
          · have hout : ∀ y ∉ inorder (.node x (.node b lb rb) r),
                y ≠ b ∧ h.right x ≠ some y := by
              intro y hy
              simp only [inorder_node, List.mem_append, List.mem_cons, not_or] at hy
              exact ⟨hy.1.2.1, hrightx y hy.2.2⟩
            exact ⟨fun y hy ↦ by simp [takenChild], fun y hy ↦ by simp [takenChild, hout y hy],
              fun y hy ↦ by simp [takenChild, hout y hy], by simp [takenChild],
              by simp [takenChild], by simp [takenChild], fun _ _ ↦ by simp [takenChild]⟩
          · simp [takenChild]
      | some pair =>
          obtain ⟨g', rb'⟩ := pair
          obtain ⟨rfl, rfl⟩ : g' = g ∧ BinaryTree.node b lb rb' = l' := by
            simpa [hpoprb] using hpop
          have hsubl : Subtree h (some x) (some b) (.node b lb rb) := ⟨rfl, hpb, hlb, hrb⟩
          obtain ⟨q, hpg, hrq, hlq, hqmem, hlg, hrebuild⟩ := hsubl.unlink_greatest hndl hpoprb
          have hqx : q ≠ x := hlx q (hl'l q hqmem)
          have hleftg : ∀ y, h.left g' = some y → y ∈ inorder (.node b lb rb') := fun y hy ↦ by
            simp [hlg y hy]
          have hother : ∀ y ∉ inorder (.node b lb rb'), h.left g' ≠ some y := fun y hy heq ↦
            hy (hleftg y heq)
          have hl'r : ∀ y ∈ inorder (.node b lb rb'), h.right x ≠ some y := fun y hy ↦
            hrightx y (hlr y (hl'l y hy))
          have hxl' : x ∉ inorder (.node b lb rb') := fun hmem ↦ hlx x (hl'l x hmem) rfl
          have hbl' : b ∈ inorder (.node b lb rb') := by simp
          refine ⟨_, takeLinks_deep hpg hqx hlq hrq, ?_, ?_, ?_, ?_, ?_⟩
          · have hbx : b ≠ x := fun heq ↦ hxl' (heq ▸ hbl')
            simp [takenDeep, hleftx, hbx, hrightx x hxr, hother x hxl', hpx]
          · have hleft : (takenDeep h x g' q).left g' = some b := by
              simp [takenDeep, hleftx]
            rw [hleft]
            refine hrebuild _ _ ?_ ?_ ?_ ?_ ?_ ?_
            · intro y hy
              simp [takenDeep, hl'g y hy]
            · intro y hy hyq
              simp [takenDeep, hl'g y hy, hyq]
            · simp [takenDeep, hl'g q hqmem]
            · simp [takenDeep, hleftx]
            · intro y hy
              have hyb : b ≠ y := by
                intro heq
                have hnd := hndl
                simp only [inorder_node, inorder_popGreatest hpoprb, List.nodup_append,
                  List.nodup_cons, List.mem_append] at hnd
                exact hnd.2.1.1 (Or.inl (heq ▸ hlg y hy))
              simp [takenDeep, hleftx, hyb, hl'r y (hleftg y hy), hy]
            · intro y hy hyb hyg
              simp [takenDeep, hleftx, hyb.symm, hl'r y hy, hyg]
          · have hright : (takenDeep h x g' q).right g' = h.right x := by simp [takenDeep]
            rw [hright]
            have hrl' : ∀ y ∈ inorder r, y ∉ inorder (.node b lb rb') := fun y hy hmem ↦
              hlr y (hl'l y hmem) hy
            have hrb' : ∀ y ∈ inorder r, b ≠ y := fun y hy heq ↦ hrl' y hy (heq ▸ hbl')
            refine hr.reparent hndr (fun y hy ↦ ?_) (fun y hy ↦ ?_) (fun y hy ↦ ?_)
              (fun y hy hne ↦ ?_)
            · simp [takenDeep, hrg y hy]
            · have hyq : y ≠ q := fun heq ↦ hrl' y hy (heq ▸ hqmem)
              simp [takenDeep, hrg y hy, hyq]
            · simp [takenDeep, hy]
            · simp [takenDeep, hleftx, hrb' y hy, hne, hother y (hrl' y hy)]
          · have hout : ∀ y ∉ inorder (.node x (.node b lb rb) r),
                y ≠ g' ∧ y ≠ q ∧ b ≠ y ∧ h.right x ≠ some y ∧ h.left g' ≠ some y := by
              intro y hy
              rw [inorder_node, List.mem_append, List.mem_cons] at hy
              push Not at hy
              obtain ⟨hyl, -, hyr⟩ := hy
              refine ⟨fun heq ↦ hyl (heq ▸ hgl), fun heq ↦ hyl (heq ▸ hl'l q hqmem),
                fun heq ↦ hyl (heq ▸ hl'l b hbl'), hrightx y hyr, ?_⟩
              exact fun heq ↦ hyl (hl'l y (hleftg y heq))
            exact ⟨fun y hy ↦ by simp [takenDeep, hout y hy],
              fun y hy ↦ by simp [takenDeep, hout y hy],
              fun y hy ↦ by simp [takenDeep, hout y hy, hleftx], by simp [takenDeep],
              by simp [takenDeep], by simp [takenDeep], fun _ _ ↦ by simp [takenDeep]⟩
          · simp [takenDeep]

/-- Taking the links of an item commutes with the mirror image, unless the replacement hangs on
both sides of its parent. -/
theorem takeLinks_mirror {h : Heap ι κ τ} {x m : ι}
    (hside : ∀ q, h.parent m = some q → ¬ (h.left q = some m ∧ h.right q = some m)) :
    takeLinks h x m = (takeLinks h.mirror x m).map Heap.mirror := by
  -- the two sides are hung under the replacement in the opposite order
  have hswap : ∀ (h : Heap ι κ τ) (c d e f : Option ι),
      (((h.setRight m c).setParentOf d (some m)).setLeft m e).setParentOf f (some m) =
        (((h.setLeft m e).setParentOf f (some m)).setRight m c).setParentOf d (some m) := by
    intro h c d e f
    have hparent : ∀ y,
        ((((h.setRight m c).setParentOf d (some m)).setLeft m e).setParentOf f (some m)).parent y =
          ((((h.setLeft m e).setParentOf f (some m)).setRight m c).setParentOf d
            (some m)).parent y := by
      intro y
      simp only [Heap.parent_setParentOf, Heap.parent_setLeft, Heap.parent_setRight]
      split_ifs <;> rfl
    apply Heap.ext
    · funext y; simp
    · funext y; simp
    · exact funext hparent
    all_goals simp
  cases hparent : h.parent m with
  | none => simp [takeLinks, hparent]
  | some q =>
      by_cases hq : q = x
      · subst hq
        by_cases hright : h.right q = some m
        · have hleft : h.left q ≠ some m := fun heq ↦ hside q hparent ⟨heq, hright⟩
          simp [takeLinks, hparent, hright, hleft]
        · by_cases hleft : h.left q = some m <;> simp [takeLinks, hparent, hright, hleft]
      · have hxq : x ≠ q := Ne.symm hq
        by_cases hleft : h.left q = some m
        · have hright : h.right q ≠ some m := fun heq ↦ hside q hparent ⟨hleft, heq⟩
          simp [takeLinks, hparent, hq, hxq, hright, hleft, hswap]
        · by_cases hright : h.right q = some m
          · simp [takeLinks, hparent, hq, hxq, hright, hleft, hswap]
          · simp [takeLinks, hparent, hq, hright, hleft, hswap]

/-- The replacement from the right takes over both subtrees of the item. -/
theorem takeLinks_least {h : Heap ι κ τ} (btree : τ) {parent : Option ι} {x m : ι}
    {l r r' : BinaryTree ι} (hsub : Subtree h parent (some x) (.node x l r))
    (hnodup : (inorder (.node x l r)).Nodup) (hpop : popLeast r = some (m, r')) :
    ∃ h', takeLinks h x m = some h' ∧ h'.parent x = parent ∧
      Subtree h' (some m) (h'.left m) l ∧ Subtree h' (some m) (h'.right m) r' ∧
      Frame btree (inorder (.node x l r)) h h' ∧ h'.root = h.root := by
  obtain ⟨h₁, hrun, hpx, hl, hr, hframe, hroot⟩ :=
    takeLinks_greatest btree hsub.mirror (nodup_mirror hnodup)
      (popGreatest_mirror_of_popLeast hpop)
  have hside : ∀ q, h.parent m = some q → ¬ (h.left q = some m ∧ h.right q = some m) := by
    rintro q hq ⟨hleft, hright⟩
    have hm : m ∈ inorder (.node x l r) := by simp [inorder_popLeast hpop]
    rcases hsub.parent_link hm with ⟨hroot, -⟩ | ⟨q', hq', hparent, -⟩
    · -- the item itself is not the least of its right subtree
      obtain rfl : x = m := by simpa using hroot
      simp [List.nodup_append, inorder_popLeast hpop] at hnodup
    · obtain rfl : q = q' := by simpa using hq.symm.trans hparent
      exact hsub.sides_ne hnodup hq' hleft hright
  refine ⟨h₁.mirror, by simp [takeLinks_mirror hside, hrun], hpx, ?_, ?_, ?_, hroot⟩
  · simpa using hr.mirror
  · simpa using hl.mirror
  · refine hframe.mirror.mono fun a ha ↦ ?_
    simpa [SearchTree.mirror, or_comm, or_left_comm, or_assoc] using ha

section Whole

variable [DecidableEq τ]

/-- The last part of `BalancedBTreeReplace`: the replacement is hung where the item was and the
item is cut loose. -/
def putInPlace (h : Heap ι κ τ) (btree : τ) (x g : ι) : Heap ι κ τ :=
  ((((h.setParent g (h.parent x)).relink btree (h.parent x) x (some g)).setLeft x none).setRight x
    none).setParent x none

theorem balancedBTreeReplace_some {h h₁ : Heap ι κ τ} {btree : τ} {x g : ι} (hgx : g ≠ x)
    (htake : takeLinks h x g = some h₁) :
    balancedBTreeReplace h btree x (some g) = some (putInPlace h₁ btree x g) := by
  simp [balancedBTreeReplace, htake, hgx, putInPlace]

theorem putInPlace_spec {h : Heap ι κ τ} {btree : τ} {c : Spine ι} {x g : ι}
    {parent : Option ι} {l r : BinaryTree ι} (hctx : Context h btree c parent (some x))
    (hpx : h.parent x = parent) (hl : Subtree h (some g) (h.left g) l)
    (hr : Subtree h (some g) (h.right g) r)
    (hnodup : (x :: (inorder (.node g l r) ++ c.elements)).Nodup) :
    Context (putInPlace h btree x g) btree c parent (some g) ∧
      Subtree (putInPlace h btree x g) parent (some g) (.node g l r) ∧
      Frame btree (x :: (inorder (.node g l r) ++ c.elements)) h (putInPlace h btree x g) := by
  obtain ⟨hx, hnd⟩ := List.nodup_cons.mp hnodup
  obtain ⟨hndt, hndc, hcross⟩ := List.nodup_append.mp hnd
  rw [List.mem_append, not_or] at hx
  obtain ⟨hxt, hxc⟩ := hx
  have hparentc : ∀ y ∉ c.elements, parent ≠ some y := by
    intro y hy heq
    rw [heq] at hctx
    exact hy hctx.parent_mem
  have htc : ∀ y ∈ inorder (.node g l r), y ∉ c.elements := fun y hy hmem ↦
    hcross y hy y hmem rfl
  have hgc : g ∉ c.elements := htc g (by simp)
  have hcne : ∀ y ∈ c.elements, y ≠ x ∧ y ≠ g := fun y hy ↦
    ⟨fun heq ↦ hxc (heq ▸ hy), fun heq ↦ hgc (heq ▸ hy)⟩
  have htx : ∀ y ∈ inorder (.node g l r), y ≠ x := fun y hy heq ↦ hxt (heq ▸ hy)
  have hleft : ∀ y ∉ c.elements, y ≠ x → (putInPlace h btree x g).left y = h.left y := by
    intro y hy hyx
    simp [putInPlace, hyx, hpx, Heap.left_relink_of_ne _ _ _ _ _ _ (hparentc y hy)]
  have hright : ∀ y ∉ c.elements, y ≠ x → (putInPlace h btree x g).right y = h.right y := by
    intro y hy hyx
    simp [putInPlace, hyx, hpx, Heap.right_relink_of_ne _ _ _ _ _ _ (hparentc y hy)]
  have hparent : ∀ y, y ≠ g → y ≠ x → (putInPlace h btree x g).parent y = h.parent y := by
    intro y hyg hyx
    simp [putInPlace, hyg, hyx]
  refine ⟨?_, ?_, ?_⟩
  · -- around the hole only the link into it changes
    have hctx₁ : Context (h.setParent g parent) btree c parent (some x) :=
      hctx.congr rfl (fun y _ ↦ rfl) (fun y _ ↦ rfl) (fun y hy ↦ by simp [hcne y hy])
    have hctx₂ := hctx₁.relink hndc hxc (some g)
    refine hctx₂.congr ?_ (fun y hy ↦ ?_) (fun y hy ↦ ?_) (fun y hy ↦ ?_)
    · simp [putInPlace, hpx]
    · simp [putInPlace, hpx, hcne y hy]
    · simp [putInPlace, hpx, hcne y hy]
    · simp [putInPlace, hpx, hcne y hy]
  · have hgx : g ≠ x := htx g (by simp)
    rw [inorder_node, List.nodup_append, List.nodup_cons] at hndt
    obtain ⟨-, ⟨hgr, -⟩, hgl⟩ := hndt
    refine ⟨rfl, by simp [putInPlace, hgx, hpx], ?_, ?_⟩
    · rw [hleft g hgc hgx]
      have hmem : ∀ y ∈ inorder l, y ∈ inorder (.node g l r) := fun y hy ↦ by simp [hy]
      exact hl.congr (fun y hy ↦ hleft y (htc y (hmem y hy)) (htx y (hmem y hy)))
        (fun y hy ↦ hright y (htc y (hmem y hy)) (htx y (hmem y hy)))
        (fun y hy ↦ hparent y (hgl y hy g (by simp)) (htx y (hmem y hy)))
    · rw [hright g hgc hgx]
      have hmem : ∀ y ∈ inorder r, y ∈ inorder (.node g l r) := fun y hy ↦ by simp [hy]
      exact hr.congr (fun y hy ↦ hleft y (htc y (hmem y hy)) (htx y (hmem y hy)))
        (fun y hy ↦ hright y (htc y (hmem y hy)) (htx y (hmem y hy)))
        (fun y hy ↦ hparent y (fun heq ↦ hgr (heq ▸ hy)) (htx y (hmem y hy)))
  · have hout : ∀ y ∉ x :: (inorder (.node g l r) ++ c.elements),
        y ∉ c.elements ∧ y ≠ x ∧ y ≠ g := by
      intro y hy
      simp only [inorder_node, List.mem_cons, List.mem_append, not_or] at hy
      exact ⟨hy.2.2, hy.1, hy.2.1.2.1⟩
    refine ⟨fun y hy ↦ hleft y (hout y hy).1 (hout y hy).2.1,
      fun y hy ↦ hright y (hout y hy).1 (hout y hy).2.1,
      fun y hy ↦ hparent y (hout y hy).2.2 (hout y hy).2.1, by simp [putInPlace],
      by simp [putInPlace], by simp [putInPlace], fun other hne ↦ ?_⟩
    simp [putInPlace, Heap.root_relink_of_ne _ _ _ _ _ _ hne]

/-- An item without subtrees leaves an empty place. -/
theorem balancedBTreeReplace_none {h : Heap ι κ τ} {btree : τ} {c : Spine ι} {x : ι}
    {parent : Option ι} (hctx : Context h btree c parent (some x)) (hpx : h.parent x = parent)
    (hnodup : (x :: c.elements).Nodup) :
    ∃ h', balancedBTreeReplace h btree x none = some h' ∧ Context h' btree c parent none ∧
      Frame btree (x :: c.elements) h h' := by
  obtain ⟨hxc, hndc⟩ := List.nodup_cons.mp hnodup
  have hcx : ∀ y ∈ c.elements, y ≠ x := fun y hy heq ↦ hxc (heq ▸ hy)
  have hout : ∀ y ∉ x :: c.elements, y ≠ x ∧ parent ≠ some y := by
    intro y hy
    simp only [List.mem_cons, not_or] at hy
    refine ⟨hy.1, fun heq ↦ ?_⟩
    rw [heq] at hctx
    exact hy.2 hctx.parent_mem
  refine ⟨(((h.relink btree parent x none).setLeft x none).setRight x none).setParent x none,
    by simp [balancedBTreeReplace, hpx], ?_, ?_⟩
  · have hctx₁ := hctx.relink hndc hxc none
    exact hctx₁.congr (by simp) (fun y hy ↦ by simp [hcx y hy]) (fun y hy ↦ by simp [hcx y hy])
      (fun y hy ↦ by simp [hcx y hy])
  · refine ⟨fun y hy ↦ ?_, fun y hy ↦ ?_, fun y hy ↦ ?_, by simp, by simp, by simp,
      fun other hne ↦ ?_⟩
    · simp [hout y hy, Heap.left_relink_of_ne _ _ _ _ _ _ (hout y hy).2]
    · simp [hout y hy, Heap.right_relink_of_ne _ _ _ _ _ _ (hout y hy).2]
    · simp [hout y hy]
    · simp [Heap.root_relink_of_ne _ _ _ _ _ _ hne]

/-- The item `BalancedBTreeRemove` chooses as the replacement of the root of a subtree. -/
def replacement : BinaryTree ι → Option ι
  | .nil => none
  | .node _ l r =>
      if r.numNodes < l.numNodes then (popGreatest l).map Prod.fst else (popLeast r).map Prod.fst

/-- `BalancedBTreeReplace` with the chosen replacement removes the item from the represented
tree. -/
theorem balancedBTreeReplace_spec {h : Heap ι κ τ} {btree : τ} {c : Spine ι} {x : ι}
    {parent : Option ι} {l r : BinaryTree ι} (hctx : Context h btree c parent (some x))
    (hsub : Subtree h parent (some x) (.node x l r))
    (hnodup : (inorder (.node x l r) ++ c.elements).Nodup) :
    ∃ h' p', balancedBTreeReplace h btree x (replacement (.node x l r)) = some h' ∧
      Context h' btree c parent p' ∧ Subtree h' parent p' (dropRoot (.node x l r)) ∧
      Frame btree (inorder (.node x l r) ++ c.elements) h h' := by
  obtain ⟨hndt, hndc, hcross⟩ := List.nodup_append.mp hnodup
  have htc : ∀ y ∈ c.elements, y ∉ inorder (.node x l r) := fun y hy hmem ↦
    hcross y hmem y hy rfl
  have hpx := hsub.2.1
  -- the records of the tree that remains, with the item in front, are those of the whole tree
  have hperm : ∀ {g : ι} {l' r' : BinaryTree ι},
      inorder (.node g l' r') = inorder l ++ inorder r →
      (x :: (inorder (.node g l' r') ++ c.elements)).Perm
        (inorder (.node x l r) ++ c.elements) := by
    intro g l' r' heq
    rw [heq, inorder_node, ← List.cons_append]
    exact (List.perm_middle.symm).append_right _
  have hfinish : ∀ {g : ι} {l' r' : BinaryTree ι} {h₁ : Heap ι κ τ}, g ≠ x →
      inorder (.node g l' r') = inorder l ++ inorder r →
      takeLinks h x g = some h₁ → h₁.parent x = parent →
      Subtree h₁ (some g) (h₁.left g) l' → Subtree h₁ (some g) (h₁.right g) r' →
      Frame btree (inorder (.node x l r)) h h₁ → h₁.root = h.root →
      ∃ h' p', balancedBTreeReplace h btree x (some g) = some h' ∧
        Context h' btree c parent p' ∧ Subtree h' parent p' (.node g l' r') ∧
        Frame btree (inorder (.node x l r) ++ c.elements) h h' := by
    intro g l' r' h₁ hgx hin htake hpx₁ hl₁ hr₁ hframe hroot
    have hctx₁ : Context h₁ btree c parent (some x) :=
      hctx.congr (by rw [hroot]) (fun y hy ↦ hframe.left y (htc y hy))
        (fun y hy ↦ hframe.right y (htc y hy)) (fun y hy ↦ hframe.parent y (htc y hy))
    obtain ⟨hctx', hsub', hframe'⟩ := putInPlace_spec hctx₁ hpx₁ hl₁ hr₁
      ((hperm hin).nodup_iff.mpr hnodup)
    refine ⟨_, _, balancedBTreeReplace_some hgx htake, hctx', hsub', ?_⟩
    exact (hframe.mono (List.subset_append_left _ _)).trans (hframe'.mono (hperm hin).subset)
  by_cases hheavy : r.numNodes < l.numNodes
  · cases hpop : popGreatest l with
    | none =>
        obtain rfl := popGreatest_eq_none.mp hpop
        simp at hheavy
    | some pair =>
        obtain ⟨g, l'⟩ := pair
        obtain ⟨h₁, htake, hpx₁, hl₁, hr₁, hframe, hroot⟩ :=
          takeLinks_greatest btree hsub hndt hpop
        have hgx : g ≠ x := by
          rw [inorder_node, List.nodup_append] at hndt
          exact hndt.2.2 g (by simp [inorder_popGreatest hpop]) x (by simp)
        have hin : inorder (.node g l' r) = inorder l ++ inorder r := by
          simp [inorder_popGreatest hpop]
        simpa [replacement, dropRoot, hheavy, hpop] using
          hfinish hgx hin htake hpx₁ hl₁ hr₁ hframe hroot
  · cases hpop : popLeast r with
    | none =>
        obtain rfl := popLeast_eq_none.mp hpop
        obtain rfl : l = .nil := by
          rw [← inorder_eq_nil, ← List.length_eq_zero_iff, length_inorder]
          simpa using hheavy
        have hnd : (x :: c.elements).Nodup := by simpa using hnodup
        obtain ⟨h', hrun, hctx', hframe⟩ := balancedBTreeReplace_none hctx hpx hnd
        exact ⟨h', none, by simpa [replacement, popLeast] using hrun, hctx',
          by simp [dropRoot, popLeast], by simpa using hframe⟩
    | some pair =>
        obtain ⟨m, r'⟩ := pair
        obtain ⟨h₁, htake, hpx₁, hl₁, hr₁, hframe, hroot⟩ :=
          takeLinks_least btree hsub hndt hpop
        have hmx : m ≠ x := by
          rw [inorder_node, List.nodup_append, List.nodup_cons] at hndt
          exact fun heq ↦ hndt.2.1.1 (by simp [inorder_popLeast hpop, heq])
        have hin : inorder (.node m l r') = inorder l ++ inorder r := by
          simp [inorder_popLeast hpop]
        simpa [replacement, dropRoot, hheavy, hpop] using
          hfinish hmx hin htake hpx₁ hl₁ hr₁ hframe hroot

end Whole

end HavokMud.BTree
