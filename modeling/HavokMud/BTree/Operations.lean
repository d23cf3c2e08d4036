import HavokMud.BTree.Rebalance
import HavokMud.BTree.Replace

/-!
# Adding and removing items

The two editing functions of `balanced_btree.c` carry the graph of a finite tree to the graph of
the tree with the item hung as a leaf, or with the item removed, rebalanced on request.
-/

namespace HavokMud.BTree

open BinaryTree SearchTree

variable {ι κ τ : Type} [DecidableEq ι] [DecidableEq τ]

/-- The tree the `rebalance` flag asks for. -/
def rebalanced (rebalance : Bool) (t : BinaryTree ι) : BinaryTree ι :=
  if rebalance then balance t else t

omit [DecidableEq ι] in
@[simp]
theorem inorder_rebalanced (rebalance : Bool) (t : BinaryTree ι) :
    inorder (rebalanced rebalance t) = inorder t := by
  cases rebalance <;> simp [rebalanced]

/-- The common end of both functions: rebalance the whole tree if asked to. -/
theorem rebalance_if_asked {h : Heap ι κ τ} {btree : τ} {t : BinaryTree ι} {fuel : ℕ}
    (hrep : Represents h btree t) (hfuel : t.numNodes ≤ fuel) (rebalance : Bool) :
    ∃ h', (if rebalance then balancedBTreeRebalance btree fuel h (h.root btree) else some h) =
        some h' ∧ Represents h' btree (rebalanced rebalance t) ∧ Frame btree (inorder t) h h' := by
  cases rebalance with
  | false => exact ⟨h, rfl, hrep, Frame.refl _ _ _⟩
  | true => simpa [rebalanced] using balancedBTreeRebalance_spec hrep hfuel

omit [DecidableEq τ] in
theorem Frame.setBtree {btree : τ} {records : List ι} {h h' : Heap ι κ τ}
    (hframe : Frame btree records h h') (a : ι) (o : Option τ) :
    Frame btree records (h.setBtree a o) (h'.setBtree a o) where
  left := hframe.left
  right := hframe.right
  parent := hframe.parent
  key := hframe.key
  owner := by ext1 b; simp [hframe.owner]
  visited := hframe.visited
  root := hframe.root

/-- The link into a hole, written by `BalancedBTreeAdd` for the side the hole is on. -/
def fillHole (h : Heap ι κ τ) (btree : τ) (p : Option ι) : Spine ι → Heap ι κ τ
  | .top => h.setRoot btree p
  | .left q _ _ => h.setLeft q p
  | .right q _ _ => h.setRight q p

theorem Context.fillHole {h : Heap ι κ τ} {btree : τ} {c : Spine ι} {parent p : Option ι}
    (hctx : Context h btree c parent p) (hnodup : c.elements.Nodup) (p' : Option ι) :
    Context (fillHole h btree p' c) btree c parent p' := by
  cases c with
  | top => exact ⟨hctx.1, by simp [BTree.fillHole]⟩
  | left q sibling up =>
      obtain ⟨hpar, -, hsib, hup⟩ := hctx
      simp only [Spine.elements, List.nodup_cons, List.mem_append, not_or] at hnodup
      obtain ⟨⟨hqsib, hqup⟩, -⟩ := hnodup
      refine ⟨hpar, by simp [BTree.fillHole], ?_, ?_⟩
      · refine hsib.congr (fun y hy ↦ ?_) (fun y _ ↦ rfl) (fun y _ ↦ rfl)
        have hyq : y ≠ q := fun heq ↦ hqsib (heq ▸ hy)
        simp [BTree.fillHole, hyq]
      · refine hup.congr rfl (fun y hy ↦ ?_) (fun y _ ↦ rfl) (fun y _ ↦ rfl)
        have hyq : y ≠ q := fun heq ↦ hqup (heq ▸ hy)
        simp [BTree.fillHole, hyq]
  | right q sibling up =>
      obtain ⟨hpar, -, hsib, hup⟩ := hctx
      simp only [Spine.elements, List.nodup_cons, List.mem_append, not_or] at hnodup
      obtain ⟨⟨hqsib, hqup⟩, -⟩ := hnodup
      refine ⟨hpar, by simp [BTree.fillHole], ?_, ?_⟩
      · refine hsib.congr (fun y _ ↦ rfl) (fun y hy ↦ ?_) (fun y _ ↦ rfl)
        have hyq : y ≠ q := fun heq ↦ hqsib (heq ▸ hy)
        simp [BTree.fillHole, hyq]
      · refine hup.congr rfl (fun y _ ↦ rfl) (fun y hy ↦ ?_) (fun y _ ↦ rfl)
        have hyq : y ≠ q := fun heq ↦ hqup (heq ▸ hy)
        simp [BTree.fillHole, hyq]

theorem frame_fillHole {h : Heap ι κ τ} {btree : τ} (c : Spine ι) (p : Option ι) :
    Frame btree c.elements h (fillHole h btree p c) := by
  cases c with
  | top =>
      exact ⟨fun _ _ ↦ rfl, fun _ _ ↦ rfl, fun _ _ ↦ rfl, rfl, rfl, rfl,
        fun other hne ↦ by simp [fillHole, hne]⟩
  | left q sibling up =>
      refine ⟨fun y hy ↦ ?_, fun _ _ ↦ rfl, fun _ _ ↦ rfl, rfl, rfl, rfl, fun _ _ ↦ rfl⟩
      simp only [Spine.elements, List.mem_cons, not_or] at hy
      simp [fillHole, hy.1]
  | right q sibling up =>
      refine ⟨fun _ _ ↦ rfl, fun y hy ↦ ?_, fun _ _ ↦ rfl, rfl, rfl, rfl, fun _ _ ↦ rfl⟩
      simp only [Spine.elements, List.mem_cons, not_or] at hy
      simp [fillHole, hy.1]

/-- The new item as `BalancedBTreeAdd` prepares it, under the parent found for it. -/
def prepared (h : Heap ι κ τ) (btree : τ) (a : ι) (parent : Option ι) : Heap ι κ τ :=
  (((h.setBtree a (some btree)).setLeft a none).setRight a none).setParent a parent

omit [DecidableEq τ] in
theorem frame_prepared (h : Heap ι κ τ) (btree : τ) (a : ι) (parent : Option ι) :
    Frame btree [a] (h.setBtree a (some btree)) (prepared h btree a parent) := by
  have hout : ∀ y ∉ [a], y ≠ a := fun y hy ↦ by simpa using hy
  exact ⟨fun y hy ↦ by simp [prepared, hout y hy], fun y hy ↦ by simp [prepared, hout y hy],
    fun y hy ↦ by simp [prepared, hout y hy], rfl, rfl, rfl, fun _ _ ↦ rfl⟩

/-- `BalancedBTreeAdd` up to its rebalancing: prepare the item and write the link into the hole the
search for its key ends at. -/
theorem balancedBTreeAdd_eq {keyCompare : κ → κ → ℤ} {h : Heap ι κ τ} {btree : τ} {a : ι}
    {fuel : ℕ} {c : Spine ι} {parent : Option ι}
    (hfind : findParentLoop keyCompare
      (((h.setBtree a (some btree)).setLeft a none).setRight a none)
      (h.key a) fuel none (h.root btree) = some parent)
    (hctx : Context (prepared h btree a parent) btree c parent none)
    (hside : HoleSide (probe keyCompare h (h.key a)) c)
    (hkey : ∀ q, parent = some q → keyCompare (h.key a) (h.key q) ≠ 0) (rebalance : Bool) :
    balancedBTreeAdd keyCompare fuel h btree (some a) rebalance =
      (if rebalance then
        balancedBTreeRebalance btree fuel (fillHole (prepared h btree a parent) btree (some a) c)
          ((fillHole (prepared h btree a parent) btree (some a) c).root btree)
      else some (fillHole (prepared h btree a parent) btree (some a) c)) := by
  cases c with
  | top =>
      obtain ⟨rfl, -⟩ := hctx
      simp only [balancedBTreeAdd, balancedBTreeFindParent, Heap.key_setRight, Heap.key_setLeft,
        Heap.key_setBtree, Heap.root_setRight, Heap.root_setLeft, Heap.root_setBtree, hfind]
      rfl
  | left q sibling up =>
      obtain ⟨rfl, -⟩ := hctx
      have hneg : keyCompare (h.key a) (h.key q) < 0 := hside
      have hpos : ¬ 0 < keyCompare (h.key a) (h.key q) := by omega
      simp only [balancedBTreeAdd, balancedBTreeFindParent, Heap.key_setRight, Heap.key_setLeft,
        Heap.key_setBtree, Heap.root_setRight, Heap.root_setLeft, Heap.root_setBtree, hfind,
        Heap.key_setParent, Option.bind_eq_bind, Option.bind_some]
      exact (if_neg hpos).trans (if_pos hneg)
  | right q sibling up =>
      obtain ⟨rfl, -⟩ := hctx
      have hneg : ¬ keyCompare (h.key a) (h.key q) < 0 := hside
      have hne := hkey q rfl
      have hpos : 0 < keyCompare (h.key a) (h.key q) := by omega
      simp only [balancedBTreeAdd, balancedBTreeFindParent, Heap.key_setRight, Heap.key_setLeft,
        Heap.key_setBtree, Heap.root_setRight, Heap.root_setLeft, Heap.root_setBtree, hfind,
        Heap.key_setParent, Option.bind_eq_bind, Option.bind_some]
      exact if_pos hpos

/-- `BalancedBTreeAdd` up to its rebalancing, where the key is that of the parent found: the link
to the item is not written. -/
theorem balancedBTreeAdd_eq_of_duplicate {keyCompare : κ → κ → ℤ} {h : Heap ι κ τ} {btree : τ}
    {a q : ι} {fuel : ℕ}
    (hfind : findParentLoop keyCompare
      (((h.setBtree a (some btree)).setLeft a none).setRight a none)
      (h.key a) fuel none (h.root btree) = some (some q))
    (hkey : keyCompare (h.key a) (h.key q) = 0) (rebalance : Bool) :
    balancedBTreeAdd keyCompare fuel h btree (some a) rebalance =
      (if rebalance then
        balancedBTreeRebalance btree fuel (prepared h btree a (some q))
          ((prepared h btree a (some q)).root btree)
      else some (prepared h btree a (some q))) := by
  have hpos : ¬ 0 < keyCompare (h.key a) (h.key q) := by omega
  have hneg : ¬ keyCompare (h.key a) (h.key q) < 0 := by omega
  simp only [balancedBTreeAdd, balancedBTreeFindParent, Heap.key_setRight, Heap.key_setLeft,
    Heap.key_setBtree, Heap.root_setRight, Heap.root_setLeft, Heap.root_setBtree, hfind,
    Heap.key_setParent, Option.bind_eq_bind, Option.bind_some]
  exact (if_neg hpos).trans (if_neg hneg)

omit [DecidableEq τ] in
/-- The parent that `BalancedBTreeAdd` finds, and the hole it has for the item. -/
theorem exists_hole (keyCompare : κ → κ → ℤ) {h : Heap ι κ τ} {btree : τ} {t : BinaryTree ι} {a : ι}
    {fuel : ℕ} (hrep : Represents h btree t) (ha : a ∉ inorder t) (hfuel : t.numNodes ≤ fuel) :
    ∃ c parent, findParentLoop keyCompare
        (((h.setBtree a (some btree)).setLeft a none).setRight a none)
        (h.key a) fuel none (h.root btree) = some parent ∧
      Context (prepared h btree a parent) btree c parent none ∧
      HoleSide (probe keyCompare h (h.key a)) c ∧ c.plug .nil = t ∧
      c.plug (.node a .nil .nil) = SearchTree.insert (probe keyCompare h (h.key a)) a t := by
  have hne : ∀ b ∈ inorder t, b ≠ a := fun b hb heq ↦ ha (heq ▸ hb)
  -- clearing the links of the new item touches nothing on the tree
  have hsub₀ : Subtree (((h.setBtree a (some btree)).setLeft a none).setRight a none) none
      (h.root btree) t :=
    hrep.links.congr (fun b hb ↦ by simp [hne b hb]) (fun b hb ↦ by simp [hne b hb])
      (fun b _ ↦ rfl)
  have htop : Context (((h.setBtree a (some btree)).setLeft a none).setRight a none) btree .top none
      (h.root btree) := ⟨rfl, rfl⟩
  obtain ⟨c, parent, hfind, hctx, hside, hplug, hins⟩ :=
    findParentLoop_eq htop hsub₀ (trivial : HoleSide (probe keyCompare _ (h.key a)) .top) hfuel
  simp only [Spine.plug] at hplug hins
  have hmem : ∀ b ∈ c.elements, b ∈ inorder t := fun b hb ↦ by
    rw [← hplug, Spine.mem_plug]; exact Or.inr hb
  exact ⟨c, parent, hfind, hctx.congr rfl (fun b _ ↦ rfl) (fun b _ ↦ rfl)
    (fun b hb ↦ by simp [prepared, hne b (hmem b hb)]), hside, hplug, hins a⟩

/-- An item whose parent has another key is hung as a leaf. -/
theorem balancedBTreeAdd_hung {keyCompare : κ → κ → ℤ} {h : Heap ι κ τ} {btree : τ}
    {t : BinaryTree ι} {a : ι} {fuel : ℕ} (hrep : Represents h btree t) (ha : a ∉ inorder t)
    (hfuel : t.numNodes < fuel) {c : Spine ι} {parent : Option ι}
    (hfind : findParentLoop keyCompare
      (((h.setBtree a (some btree)).setLeft a none).setRight a none)
      (h.key a) fuel none (h.root btree) = some parent)
    (hctx : Context (prepared h btree a parent) btree c parent none)
    (hside : HoleSide (probe keyCompare h (h.key a)) c) (hplug : c.plug .nil = t)
    (hins : c.plug (.node a .nil .nil) = SearchTree.insert (probe keyCompare h (h.key a)) a t)
    (hkey : ∀ q, parent = some q → keyCompare (h.key a) (h.key q) ≠ 0) (rebalance : Bool) :
    ∃ h', balancedBTreeAdd keyCompare fuel h btree (some a) rebalance = some h' ∧
      Frame btree (a :: inorder t) (h.setBtree a (some btree)) h' ∧
      Represents h' btree
        (rebalanced rebalance (SearchTree.insert (probe keyCompare h (h.key a)) a t)) := by
  have hmem : ∀ b ∈ c.elements, b ∈ inorder t := fun b hb ↦ by
    rw [← hplug, Spine.mem_plug]; exact Or.inr hb
  have hprepared : Frame btree (a :: inorder t) (h.setBtree a (some btree))
      (prepared h btree a parent) := (frame_prepared h btree a parent).mono (by simp)
  have hnodupc : c.elements.Nodup := by
    have hnodup := hrep.nodup
    rw [← hplug, Spine.nodup_plug] at hnodup
    simpa using hnodup
  have hac : a ∉ c.elements := fun hmema ↦ ha (hmem a hmema)
  -- the new leaf in its hole
  have hctx₂ := hctx.fillHole hnodupc (some a)
  have hleaf : Subtree (fillHole (prepared h btree a parent) btree (some a) c) parent (some a)
      (.node a .nil .nil) := by
    have hframe : Frame btree c.elements (prepared h btree a parent)
        (fillHole (prepared h btree a parent) btree (some a) c) := frame_fillHole c (some a)
    refine ⟨rfl, ?_, ?_, ?_⟩
    · rw [hframe.parent a hac]; simp [prepared]
    · rw [subtree_nil, hframe.left a hac]; simp [prepared]
    · rw [subtree_nil, hframe.right a hac]; simp [prepared]
  have hlinks := subtree_plug_iff.mpr ⟨_, _, hctx₂, hleaf⟩
  rw [hins] at hlinks
  have hrep₁ : Represents (fillHole (prepared h btree a parent) btree (some a) c) btree
      (SearchTree.insert (probe keyCompare h (h.key a)) a t) :=
    ⟨hlinks, (inorder_insert_perm _ _ _).nodup_iff.mpr (List.nodup_cons.mpr ⟨ha, hrep.nodup⟩)⟩
  have hsize : (SearchTree.insert (probe keyCompare h (h.key a)) a t).numNodes ≤ fuel := by
    rw [numNodes_insert]; exact hfuel
  obtain ⟨h', hrun, hrep', hframe'⟩ := rebalance_if_asked hrep₁ hsize rebalance
  refine ⟨h', ?_, ?_, hrep'⟩
  · rw [balancedBTreeAdd_eq hfind hctx hside hkey, hrun]
  · have hcons : c.elements ⊆ a :: inorder t := fun b hb ↦ List.mem_cons_of_mem _ (hmem b hb)
    have hall : inorder (SearchTree.insert (probe keyCompare h (h.key a)) a t) ⊆ a :: inorder t :=
      (inorder_insert_perm _ _ _).subset
    exact hprepared.trans (((frame_fillHole c (some a)).mono hcons).trans (hframe'.mono hall))

/-- An item whose parent has its key is not hung. -/
theorem balancedBTreeAdd_rejected {keyCompare : κ → κ → ℤ} {h : Heap ι κ τ} {btree : τ}
    {t : BinaryTree ι} {a q : ι} {fuel : ℕ} (hrep : Represents h btree t) (ha : a ∉ inorder t)
    (hfuel : t.numNodes ≤ fuel)
    (hfind : findParentLoop keyCompare
      (((h.setBtree a (some btree)).setLeft a none).setRight a none)
      (h.key a) fuel none (h.root btree) = some (some q))
    (hkey : keyCompare (h.key a) (h.key q) = 0) (rebalance : Bool) :
    ∃ h', balancedBTreeAdd keyCompare fuel h btree (some a) rebalance = some h' ∧
      Frame btree (inorder t) (prepared h btree a (some q)) h' ∧
      Represents h' btree (rebalanced rebalance t) := by
  have hne : ∀ b ∈ inorder t, b ≠ a := fun b hb heq ↦ ha (heq ▸ hb)
  have hrep₁ : Represents (prepared h btree a (some q)) btree t :=
    ⟨hrep.links.congr (fun b hb ↦ by simp [prepared, hne b hb])
      (fun b hb ↦ by simp [prepared, hne b hb]) fun b hb ↦ by simp [prepared, hne b hb],
      hrep.nodup⟩
  obtain ⟨h', hrun, hrep', hframe'⟩ := rebalance_if_asked hrep₁ hfuel rebalance
  exact ⟨h', by rw [balancedBTreeAdd_eq_of_duplicate hfind hkey, hrun], hframe', hrep'⟩

/-- Adding an item hangs it as a leaf of the represented tree, or finds its key there and leaves
the tree as it is. -/
theorem balancedBTreeAdd_cases (keyCompare : κ → κ → ℤ) {h : Heap ι κ τ} {btree : τ}
    {t : BinaryTree ι} {a : ι} {fuel : ℕ} (hrep : Represents h btree t) (ha : a ∉ inorder t)
    (hfuel : t.numNodes < fuel) (rebalance : Bool) :
    ∃ h', balancedBTreeAdd keyCompare fuel h btree (some a) rebalance = some h' ∧
      Frame btree (a :: inorder t) (h.setBtree a (some btree)) h' ∧
      (Represents h' btree
          (rebalanced rebalance (SearchTree.insert (probe keyCompare h (h.key a)) a t)) ∨
        Represents h' btree (rebalanced rebalance t) ∧
          ∃ b ∈ inorder t, keyCompare (h.key a) (h.key b) = 0) := by
  obtain ⟨c, parent, hfind, hctx, hside, hplug, hins⟩ :=
    exists_hole keyCompare hrep ha hfuel.le
  by_cases hkey : ∀ q, parent = some q → keyCompare (h.key a) (h.key q) ≠ 0
  · obtain ⟨h', hrun, hframe, hrep'⟩ :=
      balancedBTreeAdd_hung hrep ha hfuel hfind hctx hside hplug hins hkey rebalance
    exact ⟨h', hrun, hframe, .inl hrep'⟩
  · push Not at hkey
    obtain ⟨q, rfl, hzero⟩ := hkey
    have hq : q ∈ inorder t := by
      rw [← hplug, Spine.mem_plug]
      exact .inr hctx.parent_mem
    obtain ⟨h', hrun, hframe, hrep'⟩ :=
      balancedBTreeAdd_rejected hrep ha hfuel.le hfind hzero rebalance
    have hprepared : Frame btree (a :: inorder t) (h.setBtree a (some btree))
        (prepared h btree a (some q)) := (frame_prepared h btree a (some q)).mono (by simp)
    exact ⟨h', hrun, hprepared.trans (hframe.mono (List.subset_cons_self _ _)),
      .inr ⟨hrep', q, hq, hzero⟩⟩

/-- Adding an item whose key is new hangs it as a leaf of the represented tree. -/
theorem balancedBTreeAdd_spec {keyCompare : κ → κ → ℤ} {h : Heap ι κ τ} {btree : τ}
    {t : BinaryTree ι} {a : ι} {fuel : ℕ} (hrep : Represents h btree t) (ha : a ∉ inorder t)
    (hkey : ∀ b ∈ inorder t, keyCompare (h.key a) (h.key b) ≠ 0) (hfuel : t.numNodes < fuel)
    (rebalance : Bool) :
    ∃ h', balancedBTreeAdd keyCompare fuel h btree (some a) rebalance = some h' ∧
      Represents h' btree
        (rebalanced rebalance (SearchTree.insert (probe keyCompare h (h.key a)) a t)) ∧
      Frame btree (a :: inorder t) (h.setBtree a (some btree)) h' := by
  obtain ⟨h', hrun, hframe, hrep' | ⟨-, b, hb, hzero⟩⟩ :=
    balancedBTreeAdd_cases keyCompare hrep ha hfuel rebalance
  · exact ⟨h', hrun, hrep', hframe⟩
  · exact absurd hzero (hkey b hb)

/-- Removing an item of the tree takes it out of the represented tree. -/
theorem balancedBTreeRemove_spec {h : Heap ι κ τ} {btree : τ} {t : BinaryTree ι} {a : ι}
    {fuel : ℕ} (hrep : Represents h btree t) (ha : a ∈ inorder t)
    (howner : h.btree a = some btree) (hfuel : t.numNodes ≤ fuel) (rebalance : Bool) :
    ∃ h', balancedBTreeRemove fuel h btree (some a) rebalance = some h' ∧
      Represents h' btree (rebalanced rebalance (remove a t)) ∧
      Frame btree (inorder t) (h.setBtree a none) h' := by
  obtain ⟨c, l, r, hplug⟩ := Spine.exists_plug ha .top
  simp only [Spine.plug] at hplug
  subst hplug
  obtain ⟨parent, p, hctx, hsub⟩ := subtree_plug_iff.mp hrep.links
  obtain rfl := hsub.1
  have hnodup := Spine.nodup_plug.mp hrep.nodup
  have hsize := Spine.numNodes_le_plug c (.node a l r)
  simp only [numNodes] at hsize
  have hac : a ∉ c.elements := fun hmem ↦
    (List.nodup_append.mp hnodup).2.2 a (by simp) a hmem rfl
  have hwl := balancedBTreeWeight_eq hsub.2.2.1 (by omega : l.numNodes ≤ fuel)
  have hwr := balancedBTreeWeight_eq hsub.2.2.2 (by omega : r.numNodes ≤ fuel)
  have hgreatest := balancedBTreeFindGreatest_eq hsub.2.2.1 (by omega : l.numNodes ≤ fuel)
  have hleast := balancedBTreeFindLeast_eq hsub.2.2.2 (by omega : r.numNodes ≤ fuel)
  obtain ⟨h₁, p₁, hreplace, hctx₁, hsub₁, hframe₁⟩ := balancedBTreeReplace_spec hctx hsub hnodup
  have hdrop : remove a (c.plug (.node a l r)) = c.plug (dropRoot (.node a l r)) := by
    rw [Spine.remove_plug hac, remove, if_pos rfl]
  have hrep₁ : Represents (h₁.setBtree a none) btree (remove a (c.plug (.node a l r))) := by
    refine ⟨?_, ?_⟩
    · rw [hdrop, subtree_plug_iff]
      exact ⟨parent, p₁, hctx₁.congr rfl (fun _ _ ↦ rfl) (fun _ _ ↦ rfl) (fun _ _ ↦ rfl),
        hsub₁.congr (fun _ _ ↦ rfl) (fun _ _ ↦ rfl) (fun _ _ ↦ rfl)⟩
    · rw [inorder_remove hrep.nodup]
      exact hrep.nodup.erase a
  have hsize₁ : (remove a (c.plug (.node a l r))).numNodes ≤ fuel := by
    rw [← length_inorder, inorder_remove hrep.nodup]
    exact ((List.erase_sublist).length_le.trans (length_inorder _).le).trans hfuel
  obtain ⟨h', hrun, hrep', hframe'⟩ := rebalance_if_asked hrep₁ hsize₁ rebalance
  refine ⟨h', ?_, hrep', ?_⟩
  · by_cases hheavy : r.numNodes < l.numNodes
    · simp only [replacement, hheavy, if_true] at hreplace
      simpa [balancedBTreeRemove, howner, hwl, hwr, hheavy, hgreatest, hreplace] using hrun
    · simp only [replacement, hheavy, if_false] at hreplace
      simpa [balancedBTreeRemove, howner, hwl, hwr, hheavy, hleast, hreplace] using hrun
  · have hall : inorder (remove a (c.plug (.node a l r))) ⊆ inorder (c.plug (.node a l r)) := by
      rw [inorder_remove hrep.nodup]
      exact List.erase_subset
    have hperm := (Spine.inorder_plug_perm c (.node a l r)).symm.subset
    exact ((hframe₁.mono hperm).setBtree a none).trans (hframe'.mono hall)

omit [DecidableEq τ] in
/-- Without the right side of a record the links still form a tree. -/
theorem Represents.cutRight {h : Heap ι κ τ} {btree : τ} {t : BinaryTree ι} {q : ι}
    (hrep : Represents h btree t) (hq : q ∈ inorder t) :
    ∃ t', Represents (h.setRight q none) btree t' ∧ t'.numNodes ≤ t.numNodes ∧
      ∀ b ∈ inorder t', b ∈ inorder t := by
  obtain ⟨c, l, r, hplug⟩ := Spine.exists_plug hq .top
  simp only [Spine.plug] at hplug
  subst hplug
  obtain ⟨parent, p, hctx, hsub⟩ := subtree_plug_iff.mp hrep.links
  obtain ⟨rfl, hparent, hl, -⟩ := hsub
  have hnodup := Spine.nodup_plug.mp hrep.nodup
  have hsublist : (inorder (.node q l .nil)).Sublist (inorder (.node q l r)) := by
    simp
  have hqc : ∀ y ∈ c.elements, y ≠ q := by
    rintro y hy rfl
    exact (List.nodup_append.mp hnodup).2.2 y (by simp) y hy rfl
  have hql : ∀ y ∈ inorder l, y ≠ q := by
    have hnodupq := (List.nodup_append.mp hnodup).1
    rw [inorder_node] at hnodupq
    rintro y hy rfl
    exact (List.nodup_append.mp hnodupq).2.2 y hy y (by simp) rfl
  refine ⟨c.plug (.node q l .nil), ⟨?_, ?_⟩, ?_, ?_⟩
  · refine subtree_plug_iff.mpr ⟨parent, some q, ?_, rfl, hparent, ?_, by simp⟩
    · exact hctx.congr rfl (fun _ _ ↦ rfl) (fun y hy ↦ by simp [hqc y hy]) fun _ _ ↦ rfl
    · exact hl.congr (fun _ _ ↦ rfl) (fun y hy ↦ by simp [hql y hy]) fun _ _ ↦ rfl
  · exact Spine.nodup_plug.mpr (hnodup.sublist (hsublist.append_right _))
  · rw [← length_inorder, ← length_inorder, (Spine.inorder_plug_perm _ _).length_eq,
      (Spine.inorder_plug_perm _ _).length_eq]
    exact (hsublist.append_right _).length_le
  · intro b hb
    rw [Spine.mem_plug] at hb ⊢
    exact hb.imp_left fun hb ↦ hsublist.subset hb

end HavokMud.BTree
