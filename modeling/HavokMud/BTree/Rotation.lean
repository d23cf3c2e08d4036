import HavokMud.BTree.Search
import HavokMud.SearchTree.Balance

/-!
# Moving an in-order neighbour

Both `BalancedBTreeReplace` and `BalancedBTreeRebalance` take the greatest item of a left subtree
(or the least of a right one) out of its place and put it above what is left.  The lemmas below say
what the edited links represent, first for the place the item leaves and then for the whole step.
The statements for the least item follow from those for the greatest by reading the graph in a
mirror.
-/

namespace HavokMud.BTree

open BinaryTree SearchTree

variable {ι κ τ : Type}

/-- The two heaps differ only in the links of the records in `records` and in the root of
`btree`. -/
structure Frame (btree : τ) (records : List ι) (h h' : Heap ι κ τ) : Prop where
  left : ∀ a ∉ records, h'.left a = h.left a
  right : ∀ a ∉ records, h'.right a = h.right a
  parent : ∀ a ∉ records, h'.parent a = h.parent a
  key : h'.key = h.key
  owner : h'.btree = h.btree
  visited : h'.visited = h.visited
  root : ∀ other, other ≠ btree → h'.root other = h.root other

theorem Frame.refl (btree : τ) (records : List ι) (h : Heap ι κ τ) : Frame btree records h h :=
  ⟨fun _ _ ↦ rfl, fun _ _ ↦ rfl, fun _ _ ↦ rfl, rfl, rfl, rfl, fun _ _ ↦ rfl⟩

theorem Frame.trans {btree : τ} {records : List ι} {h₁ h₂ h₃ : Heap ι κ τ}
    (h₁₂ : Frame btree records h₁ h₂) (h₂₃ : Frame btree records h₂ h₃) :
    Frame btree records h₁ h₃ where
  left a ha := (h₂₃.left a ha).trans (h₁₂.left a ha)
  right a ha := (h₂₃.right a ha).trans (h₁₂.right a ha)
  parent a ha := (h₂₃.parent a ha).trans (h₁₂.parent a ha)
  key := h₂₃.key.trans h₁₂.key
  owner := h₂₃.owner.trans h₁₂.owner
  visited := h₂₃.visited.trans h₁₂.visited
  root other hne := (h₂₃.root other hne).trans (h₁₂.root other hne)

theorem Frame.mono {btree : τ} {records records' : List ι} {h h' : Heap ι κ τ}
    (hframe : Frame btree records h h') (hsub : records ⊆ records') :
    Frame btree records' h h' where
  left a ha := hframe.left a fun hmem ↦ ha (hsub hmem)
  right a ha := hframe.right a fun hmem ↦ ha (hsub hmem)
  parent a ha := hframe.parent a fun hmem ↦ ha (hsub hmem)
  key := hframe.key
  owner := hframe.owner
  visited := hframe.visited
  root := hframe.root

/-- The place of the greatest item `g` of the tree below `a`, when it is not `a` itself: its parent
`q`, and what the links have to be for the tree without `g`. -/
theorem Subtree.unlink_greatest {h : Heap ι κ τ} {parent : Option ι} {a g : ι}
    {l r r' : BinaryTree ι} (hsub : Subtree h parent (some a) (.node a l r))
    (hnodup : (inorder (.node a l r)).Nodup) (hpop : popGreatest r = some (g, r')) :
    ∃ q, h.parent g = some q ∧ h.right q = some g ∧ h.left q ≠ some g ∧
      q ∈ inorder (.node a l r') ∧ (∀ b, h.left g = some b → b ∈ inorder r') ∧
      ∀ (h' : Heap ι κ τ) (parent' : Option ι),
        (∀ b ∈ inorder (.node a l r'), h'.left b = h.left b) →
        (∀ b ∈ inorder (.node a l r'), b ≠ q → h'.right b = h.right b) →
        h'.right q = h.left g →
        h'.parent a = parent' →
        (∀ b, h.left g = some b → h'.parent b = some q) →
        (∀ b ∈ inorder (.node a l r'), b ≠ a → h.left g ≠ some b → h'.parent b = h.parent b) →
        Subtree h' parent' (some a) (.node a l r') := by
  induction r generalizing a l r' parent with
  | nil => simp [popGreatest] at hpop
  | node b lb rb _ ih =>
      obtain ⟨-, hpa, hl, hb, hpb, hlb, hrb⟩ := hsub
      -- distinctness of the records, in the form used below
      simp only [inorder_node, List.nodup_append, List.nodup_cons, List.mem_append,
        List.mem_cons] at hnodup
      obtain ⟨hndl, ⟨ha, hndb⟩, hcross⟩ := hnodup
      obtain ⟨hndlb, ⟨hbrb, hndrb⟩, hcrossb⟩ := hndb
      have hal : ∀ x ∈ inorder l, x ≠ a := fun x hx ↦ hcross x hx a (Or.inl rfl)
      have hllb : ∀ x ∈ inorder l, x ∉ inorder lb := fun x hx hmem ↦
        hcross x hx x (Or.inr (Or.inl hmem)) rfl
      simp only [popGreatest] at hpop
      cases hpoprb : popGreatest rb with
      | none =>
          -- the greatest item is the right child itself
          obtain rfl := popGreatest_eq_none.mp hpoprb
          obtain ⟨rfl, rfl⟩ : b = g ∧ lb = r' := by simpa [hpoprb] using hpop
          refine ⟨a, hpb, hb, ?_, by simp, ?_, ?_⟩
          · intro heq
            rw [heq] at hl
            exact hcross b hl.root_mem b (Or.inr (Or.inr (Or.inl rfl))) rfl
          · intro c hc
            rw [hc] at hlb
            exact hlb.root_mem
          · intro h' parent' hleft hright hq hpar hchild hparent
            refine ⟨rfl, hpar, ?_, ?_⟩
            · rw [hleft a (by simp)]
              refine hl.congr (fun x hx ↦ hleft x (by simp [hx]))
                (fun x hx ↦ hright x (by simp [hx]) (hal x hx))
                (fun x hx ↦ hparent x (by simp [hx]) (hal x hx) ?_)
              intro heq
              rw [heq] at hlb
              exact hllb x hx hlb.root_mem
            · rw [hq]
              refine hlb.reparent hndlb (fun x hx ↦ hleft x (by simp [hx])) ?_ hchild ?_
              · intro x hx
                exact hright x (by simp [hx]) fun heq ↦ ha (Or.inl (heq ▸ hx))
              · intro x hx hne
                exact hparent x (by simp [hx]) (fun heq ↦ ha (Or.inl (heq ▸ hx))) hne
      | some pair =>
          -- the greatest item is further down on the right
          obtain ⟨g', rb'⟩ := pair
          obtain ⟨rfl, rfl⟩ : g' = g ∧ BinaryTree.node b lb rb' = r' := by
            simpa [hpoprb] using hpop
          have hndb : (inorder (.node b lb rb)).Nodup := by
            simp only [inorder_node, List.nodup_append, List.nodup_cons, List.mem_cons]
            exact ⟨hndlb, ⟨hbrb, hndrb⟩, hcrossb⟩
          have hsubb : Subtree h (some a) (some b) (.node b lb rb) := ⟨rfl, hpb, hlb, hrb⟩
          obtain ⟨q, hpg, hrq, hlq, hqmem, hlg, hbuild⟩ := ih hsubb hndb hpoprb
          have hinrb : ∀ x ∈ inorder rb', x ∈ inorder rb := fun x hx ↦ by
            simp [inorder_popGreatest hpoprb, hx]
          have hout : ∀ x ∈ inorder (.node b lb rb'), x ≠ a ∧ x ∉ inorder l := by
            intro x hx
            have hx' : x ∈ inorder lb ∨ x = b ∨ x ∈ inorder rb := by
              rw [inorder_node, List.mem_append, List.mem_cons] at hx
              rcases hx with hx | hx | hx
              · exact Or.inl hx
              · exact Or.inr (Or.inl hx)
              · exact Or.inr (Or.inr (hinrb x hx))
            exact ⟨fun heq ↦ ha (heq ▸ hx'), fun hmem ↦ hcross x hmem x (Or.inr hx') rfl⟩
          refine ⟨q, hpg, hrq, hlq, by simp at hqmem ⊢; tauto, ?_, ?_⟩
          · intro c hc
            simp [hlg c hc]
          · intro h' parent' hleft hright hq hpar hchild hparent
            refine ⟨rfl, hpar, ?_, ?_⟩
            · rw [hleft a (by simp)]
              refine hl.congr (fun x hx ↦ hleft x (by simp [hx])) (fun x hx ↦ ?_) (fun x hx ↦ ?_)
              · exact hright x (by simp [hx]) fun heq ↦ (hout q hqmem).2 (heq ▸ hx)
              · refine hparent x (by simp [hx]) (hal x hx) fun heq ↦ ?_
                exact (hout x (by simp [hlg x heq])).2 hx
            · have hra : h'.right a = some b := by
                rw [hright a (by simp) (hout q hqmem).1.symm, hb]
              rw [hra]
              refine hbuild h' (some a) (fun x hx ↦ hleft x ?_) (fun x hx ↦ hright x ?_) hq ?_
                hchild (fun x hx hne ↦ hparent x ?_ (hout x hx).1)
              · rw [inorder_node, List.mem_append, List.mem_cons]
                exact Or.inr (Or.inr hx)
              · rw [inorder_node, List.mem_append, List.mem_cons]
                exact Or.inr (Or.inr hx)
              · rw [hparent b (by simp) (hout b (by simp)).1, hpb]
                intro heq
                exact hbrb (hinrb b (hlg b heq))
              · rw [inorder_node, List.mem_append, List.mem_cons]
                exact Or.inr (Or.inr hx)

variable [DecidableEq ι]

/-- The edits of `shiftRight` when the moved item is the left child of the root. -/
def shiftedRightChild (h : Heap ι κ τ) (x g : ι) : Heap ι κ τ :=
  (((h.setParent g (h.parent x)).setRight g (some x)).setParent x (some g)).setLeft x none

/-- The edits of `shiftRight` when the moved item hangs under `q`, further down. -/
def shiftedRightDeep (h : Heap ι κ τ) (x g q : ι) : Heap ι κ τ :=
  (((((((h.setParent g (h.parent x)).setRight g (some x)).setLeft g (h.left x)).setParentOf
    (h.left x) (some g)).setParent x (some g)).setLeft x none).setRight q (h.left g)).setParentOf
      (h.left g) (some q)

theorem shiftRight_child {h : Heap ι κ τ} {x g : ι} (hparent : h.parent g = some x)
    (hleft : h.left x = some g) : shiftRight h x g = some (shiftedRightChild h x g) := by
  simp [shiftRight, shiftedRightChild, hparent, hleft]

theorem shiftRight_deep {h : Heap ι κ τ} {x g q : ι} (hparent : h.parent g = some q)
    (hq : q ≠ x) (hleft : h.left x ≠ some g) :
    shiftRight h x g = some (shiftedRightDeep h x g q) := by
  simp [shiftRight, shiftedRightDeep, hparent, hleft, hq]

/-- One turn of the rebalancing loop to the right, before the parent of the old root is relinked:
the greatest item of the left subtree stands above what is left of that subtree and above the old
root with its right subtree. -/
theorem shiftRight_spec {h : Heap ι κ τ} (btree : τ) {parent : Option ι} {x g : ι}
    {l l' r : BinaryTree ι} (hsub : Subtree h parent (some x) (.node x l r))
    (hnodup : (inorder (.node x l r)).Nodup) (hpop : popGreatest l = some (g, l')) :
    ∃ h', shiftRight h x g = some h' ∧
      Subtree h' parent (some g) (.node g l' (.node x .nil r)) ∧
      Frame btree (inorder (.node x l r)) h h' ∧ h'.root = h.root := by
  obtain ⟨-, hpx, hl, hr⟩ := hsub
  obtain ⟨hgl, hl'l, hlx, hlr, hl'g, hrg, hxr⟩ := apart_of_popGreatest hnodup hpop
  have hgx : g ≠ x := hlx g hgl
  have hgl' : g ∉ inorder l' := fun hmem ↦ hl'g g hmem rfl
  have hndl : (inorder l).Nodup := (List.nodup_append.mp hnodup).1
  have hl'ne : ∀ y ∈ inorder l', y ≠ g ∧ y ≠ x := fun y hy ↦ ⟨hl'g y hy, hlx y (hl'l y hy)⟩
  have hrne : ∀ y ∈ inorder r, y ≠ g ∧ y ≠ x := fun y hy ↦
    ⟨hrg y hy, fun heq ↦ hxr (heq ▸ hy)⟩
  cases l with
  | nil => simp [popGreatest] at hpop
  | node b lb rb =>
      obtain ⟨hleftx, hpb, hlb, hrb⟩ := hl
      simp only [popGreatest] at hpop
      cases hpoprb : popGreatest rb with
      | none =>
          obtain ⟨rfl, rfl⟩ : b = g ∧ lb = l' := by simpa [hpoprb] using hpop
          have hbuild : Subtree (shiftedRightChild h x b) parent (some b)
              (.node b lb (.node x .nil r)) := by
            refine ⟨rfl, by simp [shiftedRightChild, hgx, hpx], ?_, ?_⟩
            · have hleft : (shiftedRightChild h x b).left b = h.left b := by
                simp [shiftedRightChild, hgx]
              rw [hleft]
              exact hlb.congr (fun y hy ↦ by simp [shiftedRightChild, hl'ne y hy])
                (fun y hy ↦ by simp [shiftedRightChild, hl'ne y hy])
                (fun y hy ↦ by simp [shiftedRightChild, hl'ne y hy])
            · refine ⟨by simp [shiftedRightChild], by simp [shiftedRightChild],
                by simp [shiftedRightChild], ?_⟩
              have hright : (shiftedRightChild h x b).right x = h.right x := by
                simp [shiftedRightChild, hgx.symm]
              rw [hright]
              exact hr.congr (fun y hy ↦ by simp [shiftedRightChild, hrne y hy])
                (fun y hy ↦ by simp [shiftedRightChild, hrne y hy])
                (fun y hy ↦ by simp [shiftedRightChild, hrne y hy])
          refine ⟨_, shiftRight_child hpb hleftx, hbuild, ?_, rfl⟩
          have hout : ∀ y ∉ inorder (.node x (.node b lb rb) r), y ≠ b ∧ y ≠ x := by
            intro y hy
            simp only [inorder_node, List.mem_append, List.mem_cons, not_or] at hy
            exact ⟨hy.1.2.1, hy.2.1⟩
          exact ⟨fun y hy ↦ by simp [shiftedRightChild, hout y hy],
            fun y hy ↦ by simp [shiftedRightChild, hout y hy],
            fun y hy ↦ by simp [shiftedRightChild, hout y hy], rfl, rfl, rfl, fun _ _ ↦ rfl⟩
      | some pair =>
          obtain ⟨g', rb'⟩ := pair
          obtain ⟨rfl, rfl⟩ : g' = g ∧ BinaryTree.node b lb rb' = l' := by
            simpa [hpoprb] using hpop
          have hsubl : Subtree h (some x) (some b) (.node b lb rb) := ⟨rfl, hpb, hlb, hrb⟩
          obtain ⟨q, hpg, -, -, hqmem, hlg, hrebuild⟩ := hsubl.unlink_greatest hndl hpoprb
          have hqx : q ≠ x := (hl'ne q hqmem).2
          have hqg : q ≠ g' := (hl'ne q hqmem).1
          have hbg : b ≠ g' := (hl'ne b (by simp)).1
          have hbx : b ≠ x := (hl'ne b (by simp)).2
          have hleftg : ∀ y, h.left g' = some y → y ∈ inorder (.node b lb rb') := fun y hy ↦ by
            simp [hlg y hy]
          -- the records that the last two edits can reach are those of the shortened subtree
          have hother : ∀ y ∉ inorder (.node b lb rb'), h.left g' ≠ some y := fun y hy heq ↦
            hy (hleftg y heq)
          have hgb : h.left g' ≠ some b := by
            intro heq
            have hmem := hlg b heq
            have hnd := hndl
            simp only [inorder_node, inorder_popGreatest hpoprb, List.nodup_append,
              List.nodup_cons, List.mem_append] at hnd
            exact hnd.2.1.1 (Or.inl hmem)
          have hbuild : Subtree (shiftedRightDeep h x g' q) parent (some g')
              (.node g' (.node b lb rb') (.node x .nil r)) := by
            refine ⟨rfl, ?_, ?_, ?_⟩
            · simp [shiftedRightDeep, hother g' hgl', hgx, hleftx, hbg, hpx]
            · have hleft : (shiftedRightDeep h x g' q).left g' = some b := by
                simp [shiftedRightDeep, hgx, hleftx]
              rw [hleft]
              refine hrebuild _ _ ?_ ?_ ?_ ?_ ?_ ?_
              · intro y hy
                simp [shiftedRightDeep, hl'ne y hy]
              · intro y hy hyq
                simp [shiftedRightDeep, hl'ne y hy, hyq]
              · simp [shiftedRightDeep]
              · simp [shiftedRightDeep, hgb, hbx, hleftx]
              · intro y hy
                simp [shiftedRightDeep, hy]
              · intro y hy hyb hyg
                simp [shiftedRightDeep, hl'ne y hy, hyg, hleftx, hyb.symm]
            · have hxl' : x ∉ inorder (.node b lb rb') := fun hmem ↦ (hl'ne x hmem).2 rfl
              refine ⟨?_, ?_, ?_, ?_⟩
              · simp [shiftedRightDeep, hqg.symm]
              · simp [shiftedRightDeep, hother x hxl']
              · simp [shiftedRightDeep]
              · have hright : (shiftedRightDeep h x g' q).right x = h.right x := by
                  simp [shiftedRightDeep, hqx.symm, hgx.symm]
                rw [hright]
                have hrl' : ∀ y ∈ inorder r, y ∉ inorder (.node b lb rb') := fun y hy hmem ↦
                  hlr y (hl'l y hmem) hy
                refine hr.congr ?_ ?_ ?_
                · intro y hy
                  simp [shiftedRightDeep, hrne y hy]
                · intro y hy
                  have hyq : y ≠ q := fun heq ↦ hrl' y hy (heq ▸ hqmem)
                  simp [shiftedRightDeep, hrne y hy, hyq]
                · intro y hy
                  have hyb : b ≠ y := fun heq ↦ hrl' y hy (by simp [← heq])
                  simp [shiftedRightDeep, hrne y hy, hother y (hrl' y hy), hleftx, hyb]
          have hdeep : h.left x ≠ some g' := by simpa [hleftx] using hbg
          refine ⟨_, shiftRight_deep hpg hqx hdeep, hbuild, ?_, by simp [shiftedRightDeep]⟩
          have hout : ∀ y ∉ inorder (.node x (.node b lb rb) r),
              y ≠ g' ∧ y ≠ x ∧ y ≠ q ∧ b ≠ y ∧ h.left g' ≠ some y := by
            intro y hy
            have hyl : y ∉ inorder (.node b lb rb) := fun hmem ↦ hy (by
              rw [inorder_node, List.mem_append]
              exact Or.inl hmem)
            refine ⟨fun heq ↦ hyl (heq ▸ hgl), fun heq ↦ hy (by simp [heq]), ?_, ?_, ?_⟩
            · exact fun heq ↦ hyl (heq ▸ hl'l q hqmem)
            · exact fun heq ↦ hyl (by simp [← heq])
            · exact fun heq ↦ hyl (hl'l y (hleftg y heq))
          exact ⟨fun y hy ↦ by simp [shiftedRightDeep, hout y hy],
            fun y hy ↦ by simp [shiftedRightDeep, hout y hy],
            fun y hy ↦ by simp [shiftedRightDeep, hout y hy, hleftx], by simp [shiftedRightDeep],
            by simp [shiftedRightDeep], by simp [shiftedRightDeep],
            fun _ _ ↦ by simp [shiftedRightDeep]⟩

/-! ## The mirror image -/

theorem shiftLeft_mirror (h : Heap ι κ τ) (x m : ι) :
    shiftLeft h x m = (shiftRight h.mirror x m).map Heap.mirror := by
  by_cases hright : h.right x = some m
  · cases hparent : h.parent m with
    | none => simp [shiftLeft, shiftRight, hparent]
    | some q => by_cases hq : q = x <;> simp [shiftLeft, shiftRight, hparent, hright, hq]
  · cases hparent : h.parent m with
    | none => simp [shiftLeft, shiftRight, hparent]
    | some q => by_cases hq : q = x <;> simp [shiftLeft, shiftRight, hparent, hright, hq]

omit [DecidableEq ι] in
theorem Frame.mirror {btree : τ} {records : List ι} {h h' : Heap ι κ τ}
    (hframe : Frame btree records h.mirror h') : Frame btree records h h'.mirror where
  left := hframe.right
  right := hframe.left
  parent := hframe.parent
  key := hframe.key
  owner := hframe.owner
  visited := hframe.visited
  root := hframe.root

/-- One turn of the rebalancing loop to the left. -/
theorem shiftLeft_spec {h : Heap ι κ τ} (btree : τ) {parent : Option ι} {x m : ι}
    {l r r' : BinaryTree ι} (hsub : Subtree h parent (some x) (.node x l r))
    (hnodup : (inorder (.node x l r)).Nodup) (hpop : popLeast r = some (m, r')) :
    ∃ h', shiftLeft h x m = some h' ∧
      Subtree h' parent (some m) (.node m (.node x l .nil) r') ∧
      Frame btree (inorder (.node x l r)) h h' ∧ h'.root = h.root := by
  obtain ⟨h₁, hrun, hsub₁, hframe, hroot⟩ :=
    shiftRight_spec btree hsub.mirror (nodup_mirror hnodup) (popGreatest_mirror_of_popLeast hpop)
  refine ⟨h₁.mirror, by simp [shiftLeft_mirror, hrun], ?_, ?_, hroot⟩
  · have hback := hsub₁.mirror
    simpa [SearchTree.mirror] using hback
  · refine hframe.mirror.mono fun a ha ↦ ?_
    simpa [SearchTree.mirror, or_comm, or_left_comm, or_assoc] using ha

end HavokMud.BTree
