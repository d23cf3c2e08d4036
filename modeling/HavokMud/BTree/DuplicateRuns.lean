import HavokMud.BTree.Duplicates

/-!
# Runs with rejected items

In a run items may be offered whose keys are on the tree, and removed again.  While nothing is on
the right of the items that have the keys, the tree is the one of a run without them.
-/

namespace HavokMud.BTree

open BinaryTree SearchTree

variable {ι κ τ : Type} [DecidableEq ι] [DecidableEq τ]

namespace Op

/-- An item is offered, or given another key, while it is off the tree.  Any item may be removed. -/
def Offered (items : List ι) : Op ι κ → Prop
  | .add (some a) _ => a ∉ items
  | .assign a _ => a ∉ items
  | _ => True

/-- The edit is not that of a rejected item. -/
def Accepted (keyCompare : κ → κ → ℤ) (items : List ι) (keys : ι → κ) : Op ι κ → Prop
  | .add (some a) _ => ∀ b ∈ items, keyCompare (keys a) (keys b) ≠ 0
  | .remove (some a) _ => a ∈ items
  | _ => True

instance decidableAccepted (keyCompare : κ → κ → ℤ) (items : List ι) (keys : ι → κ) :
    (op : Op ι κ) → Decidable (op.Accepted keyCompare items keys)
  | .add (some a) _ =>
      inferInstanceAs (Decidable (∀ b ∈ items, keyCompare (keys a) (keys b) ≠ 0))
  | .remove (some a) _ => inferInstanceAs (Decidable (a ∈ items))
  | .add none _ | .remove none _ | .assign _ _ => isTrue trivial

/-- The items on the tree after an edit, where those of rejected items do nothing. -/
def itemsMeant (keyCompare : κ → κ → ℤ) (keys : ι → κ) (op : Op ι κ) (items : List ι) : List ι :=
  if op.Accepted keyCompare items keys then op.items items else items

end Op

/-- Every node of the tree is level. -/
def LevelTree (h : Heap ι κ τ) (btree : τ) : Prop :=
  ∃ t, Represents h btree t ∧ Balanced t

/-- The edit does no harm with a rejected item: nothing is on the right of the item with its key
when it is offered, nor of the parent it names when it is removed, and a tree to rebalance is
balanced already. -/
def Op.Careful (keyCompare : κ → κ → ℤ) (h : Heap ι κ τ) (btree : τ) (items : List ι) :
    Op ι κ → Prop
  | .add (some a) rebalance => ∀ b ∈ items, keyCompare (h.key a) (h.key b) = 0 →
      h.right b = none ∧ (rebalance = true → LevelTree h btree)
  | .remove (some a) rebalance => a ∉ items → h.btree a = some btree →
      (∀ q ∈ items, h.parent a = some q → h.right q = none) ∧
        (rebalance = true → LevelTree h btree)
  | _ => True

/-- The run without the edits of rejected items. -/
def accepted (keyCompare : κ → κ → ℤ) : List (Op ι κ) → List ι → (ι → κ) → List (Op ι κ)
  | [], _, _ => []
  | op :: ops, items, keys =>
      let rest := accepted keyCompare ops (op.itemsMeant keyCompare keys items) (op.keys keys)
      if op.Accepted keyCompare items keys then op :: rest else rest

def OfferedRun (keyCompare : κ → κ → ℤ) : List (Op ι κ) → List ι → (ι → κ) → Prop
  | [], _, _ => True
  | op :: ops, items, keys => op.Offered items ∧
      OfferedRun keyCompare ops (op.itemsMeant keyCompare keys items) (op.keys keys)

/-- All edits of a run are careful in the states they are made in. -/
def CarefulRun (keyCompare : κ → κ → ℤ) (fuel : ℕ) (btree : τ) :
    List (Op ι κ) → Heap ι κ τ → List ι → Prop
  | [], _, _ => True
  | op :: ops, h, items => op.Careful keyCompare h btree items ∧
      ∀ h', op.run keyCompare fuel btree h = some h' →
        CarefulRun keyCompare fuel btree ops h' (op.itemsMeant keyCompare h.key items)

/-- The items off the tree that name it are rejected ones. -/
def Pending (h : Heap ι κ τ) (btree : τ) (items : List ι) : Prop :=
  ∀ a ∉ items, h.btree a = some btree → ∃ q, Rejected h btree a q

section Steps

variable {keyCompare : κ → κ → ℤ} {h : Heap ι κ τ} {btree : τ} {items : List ι}
  {t : BinaryTree ι} {op : Op ι κ} {fuel : ℕ}

/-- What an edit leaves alone: the items off the tree before and after it. -/
structure Spares (h h' : Heap ι κ τ) (btree : τ) (items items' : List ι) : Prop where
  left : ∀ x ∉ items, x ∉ items' → h'.left x = h.left x
  right : ∀ x ∉ items, x ∉ items' → h'.right x = h.right x
  parent : ∀ x ∉ items, x ∉ items' → h'.parent x = h.parent x
  owner : ∀ x ∉ items, x ∉ items' → h'.btree x = h.btree x
  left_tree : ∀ x ∈ items, x ∉ items' → h'.btree x ≠ some btree

omit [DecidableEq ι] [DecidableEq τ] in
theorem Pending.spares {h' : Heap ι κ τ} {items' : List ι} (hpending : Pending h btree items)
    (hspares : Spares h h' btree items items') : Pending h' btree items' := by
  intro x hx howner
  by_cases hitem : x ∈ items
  · exact absurd howner (hspares.left_tree x hitem hx)
  · rw [hspares.owner x hitem hx] at howner
    obtain ⟨q, hrejected⟩ := hpending x hitem howner
    refine ⟨q, (hspares.owner x hitem hx).trans howner, ?_, ?_, ?_⟩
    · rw [hspares.left x hitem hx]
      exact hrejected.left
    · rw [hspares.right x hitem hx]
      exact hrejected.right
    · rw [hspares.parent x hitem hx]
      exact hrejected.parent

omit [DecidableEq ι] [DecidableEq τ] in
theorem Frame.spares {h' : Heap ι κ τ} (hframe : Frame btree items h h') :
    Spares h h' btree items items where
  left x hx _ := hframe.left x hx
  right x hx _ := hframe.right x hx
  parent x hx _ := hframe.parent x hx
  owner x _ _ := by rw [hframe.owner]
  left_tree x hx hx' := absurd hx hx'

theorem Holds.rebalance_spares (hinv : Holds keyCompare h btree items t)
    (hfuel : items.length ≤ fuel) (rebalance : Bool) :
    ∃ h', (if rebalance then balancedBTreeRebalance btree fuel h (h.root btree) else some h) =
        some h' ∧ h'.key = h.key ∧ Spares h h' btree items items ∧
      Holds keyCompare h' btree items (BTree.rebalanced rebalance t) := by
  have hsize : t.numNodes ≤ fuel := by rw [hinv.numNodes_eq]; exact hfuel
  obtain ⟨h', hrun, hrep, hframe⟩ := rebalance_if_asked hinv.represents hsize rebalance
  exact ⟨h', hrun, hframe.key, (hframe.mono hinv.perm.subset).spares,
    hinv.rebalanced hframe hrep⟩

/-- An edit that is accepted. -/
theorem Holds.accept (horder : WeakOrder keyCompare) (hinv : Holds keyCompare h btree items t)
    (hoffered : op.Offered items) (haccepted : op.Accepted keyCompare items h.key)
    (hfuel : items.length < fuel) :
    ∃ h', op.run keyCompare fuel btree h = some h' ∧ h'.key = op.keys h.key ∧
      Spares h h' btree items (op.items items) ∧
      Holds keyCompare h' btree (op.items items) (op.tree keyCompare h t) := by
  match op with
  | .add none rebalance => exact hinv.rebalance_spares hfuel.le rebalance
  | .remove none rebalance => exact hinv.rebalance_spares hfuel.le rebalance
  | .add (some a) rebalance =>
      obtain ⟨h', hrun, hframe, hinv'⟩ := hinv.add_fresh horder hoffered haccepted hfuel rebalance
      have hout : ∀ x ∉ items, x ∉ a :: items → x ∉ a :: inorder t := fun x _ hx ↦ by
        rwa [List.mem_cons, hinv.perm.mem_iff, ← List.mem_cons]
      refine ⟨h', hrun, hframe.key, ⟨fun x hx hx' ↦ ?_, fun x hx hx' ↦ ?_, fun x hx hx' ↦ ?_,
        fun x hx hx' ↦ ?_, fun x hx hx' ↦ absurd (List.mem_cons_of_mem a hx) hx'⟩, hinv'⟩
      · exact hframe.left x (hout x hx hx')
      · exact hframe.right x (hout x hx hx')
      · exact hframe.parent x (hout x hx hx')
      · have hne : x ≠ a := fun heq ↦ hx' (heq ▸ List.mem_cons_self)
        rw [hframe.owner, Heap.btree_setBtree, if_neg hne]
  | .remove (some a) rebalance =>
      obtain ⟨h', hrun, hframe, hinv'⟩ := hinv.remove_item haccepted hfuel.le rebalance
      have hout : ∀ x ∉ items, x ∉ inorder t := fun x hx hmem ↦ hx (hinv.perm.mem_iff.mp hmem)
      have hnodup : items.Nodup := hinv.perm.nodup_iff.mp hinv.represents.nodup
      refine ⟨h', hrun, hframe.key, ⟨fun x hx _ ↦ hframe.left x (hout x hx),
        fun x hx _ ↦ hframe.right x (hout x hx), fun x hx _ ↦ hframe.parent x (hout x hx),
        fun x hx _ ↦ ?_, fun x hx hx' ↦ ?_⟩, hinv'⟩
      · have hne : x ≠ a := fun heq ↦ hx (heq ▸ haccepted)
        rw [hframe.owner, Heap.btree_setBtree, if_neg hne]
      · have heq : x = a := by
          by_contra hne
          exact hx' (hnodup.mem_erase_iff.mpr ⟨hne, hx⟩)
        rw [hframe.owner, heq, Heap.btree_setBtree, if_pos rfl]
        simp
  | .assign a key =>
      exact ⟨_, rfl, rfl, ⟨fun _ _ _ ↦ rfl, fun _ _ _ ↦ rfl, fun _ _ _ ↦ rfl, fun _ _ _ ↦ rfl,
        fun x hx hx' ↦ absurd hx hx'⟩, hinv.assign hoffered key⟩

omit [DecidableEq ι] [DecidableEq τ] in
theorem LevelTree.rebalanced_eq (hrep : Represents h btree t) {rebalance : Bool}
    (hlevel : rebalance = true → LevelTree h btree) : rebalanced rebalance t = t := by
  cases rebalance with
  | false => rfl
  | true =>
      obtain ⟨t', hrep', hbalanced⟩ := hlevel rfl
      obtain rfl := hrep.unique hrep'
      exact balance_eq_self_iff.mpr hbalanced

/-- The edit of a rejected item changes no tree. -/
theorem Holds.reject (horder : WeakOrder keyCompare) (hinv : Holds keyCompare h btree items t)
    (hpending : Pending h btree items) (hoffered : op.Offered items)
    (hrejected : ¬ op.Accepted keyCompare items h.key)
    (hcareful : op.Careful keyCompare h btree items) (hfuel : items.length < fuel) :
    ∃ h', op.run keyCompare fuel btree h = some h' ∧ h'.key = h.key ∧
      Holds keyCompare h' btree items t ∧ Pending h' btree items := by
  match op with
  | .add none rebalance => exact absurd trivial hrejected
  | .remove none rebalance => exact absurd trivial hrejected
  | .assign a key => exact absurd trivial hrejected
  | .add (some a) rebalance =>
      have hitem : ∃ b ∈ items, keyCompare (h.key a) (h.key b) = 0 := by
        simpa [Op.Accepted] using hrejected
      obtain ⟨b, hb, hkey⟩ := hitem
      obtain ⟨hright, hlevel⟩ := hcareful b hb hkey
      obtain ⟨h', hrun, hrep, hframe⟩ :=
        hinv.add_rejected horder hoffered hb hkey hfuel hright rebalance
      rw [LevelTree.rebalanced_eq hinv.represents hlevel] at hrep
      have hne : ∀ x ∈ inorder t, x ≠ a := fun x hx heq ↦
        hoffered (heq ▸ hinv.perm.mem_iff.mp hx)
      refine ⟨h', hrun, hframe.key, ⟨hrep, hinv.perm, ?_, fun x hx ↦ ?_⟩, fun x hx howner ↦ ?_⟩
      · rw [hframe.key]
        exact hinv.sorted
      · rw [hframe.owner]
        simpa [prepared, hne x hx] using hinv.owner x hx
      · by_cases heq : x = a
        · refine ⟨b, howner, ?_, ?_, ?_⟩
          · rw [hframe.left x hx]
            simp [prepared, heq]
          · rw [hframe.right x hx]
            simp [prepared, heq]
          · rw [hframe.parent x hx]
            simp [prepared, heq]
        · rw [hframe.owner] at howner
          obtain ⟨q, hold⟩ := hpending x hx (by simpa [prepared, heq] using howner)
          refine ⟨q, ?_, ?_, ?_, ?_⟩
          · rw [hframe.owner]
            exact howner
          · rw [hframe.left x hx]
            simpa [prepared, heq] using hold.left
          · rw [hframe.right x hx]
            simpa [prepared, heq] using hold.right
          · rw [hframe.parent x hx]
            simpa [prepared, heq] using hold.parent
  | .remove (some a) rebalance =>
      have ha : a ∉ items := hrejected
      by_cases howner : h.btree a = some btree
      · obtain ⟨q, hold⟩ := hpending a ha howner
        obtain ⟨hright, hlevel⟩ := hcareful ha howner
        obtain ⟨h', hrun, hrep, hframe⟩ := hinv.remove_rejected ha hold hfuel.le
          (fun hq ↦ hright q hq hold.parent) rebalance
        rw [LevelTree.rebalanced_eq hinv.represents hlevel] at hrep
        have hne : ∀ x ∈ inorder t, x ≠ a := fun x hx heq ↦ ha (heq ▸ hinv.perm.mem_iff.mp hx)
        refine ⟨h', hrun, hframe.key.trans (key_unhooked h btree a q),
          ⟨hrep, hinv.perm, ?_, fun x hx ↦ ?_⟩, fun x hx hown ↦ ?_⟩
        · rw [hframe.key, key_unhooked]
          exact hinv.sorted
        · rw [hframe.owner, (unhooked_links h btree a q (hne x hx)).2.2.2]
          exact hinv.owner x hx
        · rw [hframe.owner] at hown
          have heq : x ≠ a := by
            rintro rfl
            rw [btree_unhooked] at hown
            cases hown
          obtain ⟨hleft, hright', hparent, hbtree⟩ := unhooked_links h btree a q heq
          obtain ⟨q', hold'⟩ := hpending x hx (hbtree ▸ hown)
          refine ⟨q', by rw [hframe.owner]; exact hown, ?_, ?_, ?_⟩
          · rw [hframe.left x hx]
            rcases hleft with hleft | ⟨-, -, hleft⟩
            · rw [hleft]
              exact hold'.left
            · exact hleft
          · rw [hframe.right x hx]
            rcases hright' with hright' | ⟨-, hright'⟩
            · rw [hright']
              exact hold'.right
            · exact hright'
          · rw [hframe.parent x hx, hparent]
            exact hold'.parent
      · refine ⟨h, ?_, rfl, hinv, hpending⟩
        rw [Op.run, balancedBTreeRemove]
        exact if_pos howner

end Steps

/-! ## Runs -/

section Runs

variable {keyCompare : κ → κ → ℤ} {h g : Heap ι κ τ} {btree : τ} {items : List ι}
  {t : BinaryTree ι} {fuel : ℕ}

omit [DecidableEq τ] in
theorem Op.keys_of_not_accepted {op : Op ι κ} {keys : ι → κ}
    (h : ¬ op.Accepted keyCompare items keys) : op.keys keys = keys := by
  match op with
  | .add _ _ | .remove _ _ => rfl
  | .assign a key => exact absurd trivial h

omit [DecidableEq τ] in
theorem Op.tree_congr (op : Op ι κ) (hkeys : g.key = h.key) :
    op.tree keyCompare g t = op.tree keyCompare h t := by
  match op with
  | .add (some a) rebalance =>
      have hprobe : probe keyCompare g (g.key a) = probe keyCompare h (h.key a) := by
        funext b
        rw [probe, probe, hkeys]
      rw [Op.tree, Op.tree, hprobe]
  | .add none _ | .remove none _ | .remove (some _) _ | .assign _ _ => rfl

/-- A careful run and the run without the edits of rejected items go through the same trees. -/
theorem Holds.run_accepted (horder : WeakOrder keyCompare)
    (hinv : Holds keyCompare h btree items t) (hghost : Holds keyCompare g btree items t)
    (hkeys : g.key = h.key) (hpending : Pending h btree items) {ops : List (Op ι κ)}
    (hoffered : OfferedRun keyCompare ops items h.key)
    (hcareful : CarefulRun keyCompare fuel btree ops h items)
    (hfuel : items.length + ops.length ≤ fuel) :
    ∃ h' g' t', BTree.runOps keyCompare fuel btree ops h = some h' ∧
      BTree.runOps keyCompare fuel btree (accepted keyCompare ops items h.key) g = some g' ∧
      Holds keyCompare h' btree (itemsAfter (accepted keyCompare ops items h.key) items) t' ∧
      Holds keyCompare g' btree (itemsAfter (accepted keyCompare ops items h.key) items) t' := by
  induction ops generalizing h g items t with
  | nil => exact ⟨h, g, t, rfl, rfl, hinv, hghost⟩
  | cons op ops ih =>
      rw [List.length_cons] at hfuel
      have hlt : items.length < fuel := by omega
      obtain ⟨hop, hops⟩ := hoffered
      obtain ⟨hcareful, hcarefuls⟩ := hcareful
      by_cases haccepted : op.Accepted keyCompare items h.key
      · have haccepted' : op.Accepted keyCompare items g.key := by rwa [hkeys]
        have hlength := op.length_items_le items
        obtain ⟨h₁, hrun, hkey, hspares, hinv₁⟩ := hinv.accept horder hop haccepted hlt
        obtain ⟨g₁, hrunGhost, hkeyGhost, -, hghost₁⟩ :=
          hghost.accept horder hop haccepted' hlt
        rw [op.tree_congr hkeys] at hghost₁
        have hmeant : op.itemsMeant keyCompare h.key items = op.items items := if_pos haccepted
        have hcarefuls := hcarefuls h₁ hrun
        rw [hmeant] at hops hcarefuls
        rw [← hkey] at hops
        obtain ⟨h', g', t', hruns, hrunsGhost, hinv', hghost'⟩ :=
          ih hinv₁ hghost₁ (by rw [hkeyGhost, hkey, hkeys]) (hpending.spares hspares) hops
            hcarefuls (by omega)
        have hlist : accepted keyCompare (op :: ops) items h.key =
            op :: accepted keyCompare ops (op.items items) h₁.key := by
          rw [accepted, hmeant, hkey, if_pos haccepted]
        rw [hlist]
        refine ⟨h', g', t', ?_, ?_, hinv', hghost'⟩
        · rw [BTree.runOps, hrun]
          exact hruns
        · rw [BTree.runOps, hrunGhost]
          exact hrunsGhost
      · obtain ⟨h₁, hrun, hkey, hinv₁, hpending₁⟩ :=
          hinv.reject horder hpending hop haccepted hcareful hlt
        have hmeant : op.itemsMeant keyCompare h.key items = items := if_neg haccepted
        have hsame := Op.keys_of_not_accepted haccepted
        have hcarefuls := hcarefuls h₁ hrun
        rw [hmeant] at hops hcarefuls
        rw [hsame, ← hkey] at hops
        obtain ⟨h', g', t', hruns, hrunsGhost, hinv', hghost'⟩ :=
          ih hinv₁ hghost (by rw [hkey, hkeys]) hpending₁ hops hcarefuls (by omega)
        have hlist : accepted keyCompare (op :: ops) items h.key =
            accepted keyCompare ops items h₁.key := by
          rw [accepted, hmeant, hsame, hkey, if_neg haccepted]
        rw [hlist]
        refine ⟨h', g', t', ?_, hrunsGhost, hinv', hghost'⟩
        rw [BTree.runOps, hrun]
        exact hruns

/-! ## When duplicates are rejected without damage -/

/-- Offering an item whose key is on the tree leaves the links of the tree as they are exactly if
nothing is on the right of the item with the key, and the tree is balanced if rebalancing is asked
for; removing it, exactly if nothing is on the right of the parent it was given.  A run whose edits
are all careful in this way goes through the trees of the run without the rejected items. -/
theorem duplicates_iff (horder : WeakOrder keyCompare) :
    (∀ (h : Heap ι κ τ) (btree : τ) (items : List ι) (t : BinaryTree ι) (a b : ι) (fuel : ℕ)
      (rebalance : Bool), Holds keyCompare h btree items t → a ∉ items → b ∈ items →
      keyCompare (h.key a) (h.key b) = 0 → items.length < fuel →
      ∃ h', balancedBTreeAdd keyCompare fuel h btree (some a) rebalance = some h' ∧
        (SameLinks h h' btree items ↔ h.right b = none ∧ (rebalance = true → Balanced t))) ∧
    (∀ (h : Heap ι κ τ) (btree : τ) (items : List ι) (t : BinaryTree ι) (a q : ι) (fuel : ℕ)
      (rebalance : Bool), Holds keyCompare h btree items t → a ∉ items → Rejected h btree a q →
      items.length ≤ fuel →
      ∃ h', balancedBTreeRemove fuel h btree (some a) rebalance = some h' ∧
        (SameLinks h h' btree items ↔
          (q ∈ items → h.right q = none) ∧ (rebalance = true → Balanced t))) ∧
    ∀ (h : Heap ι κ τ) (btree : τ) (items : List ι) (t : BinaryTree ι) (ops : List (Op ι κ))
      (fuel : ℕ), Holds keyCompare h btree items t → Pending h btree items →
      OfferedRun keyCompare ops items h.key → CarefulRun keyCompare fuel btree ops h items →
      items.length + ops.length ≤ fuel →
      ∃ h' g' t', runOps keyCompare fuel btree ops h = some h' ∧
        runOps keyCompare fuel btree (accepted keyCompare ops items h.key) h = some g' ∧
        Holds keyCompare h' btree (itemsAfter (accepted keyCompare ops items h.key) items) t' ∧
        Holds keyCompare g' btree (itemsAfter (accepted keyCompare ops items h.key) items) t' ∧
        SameLinks g' h' btree (itemsAfter (accepted keyCompare ops items h.key) items) := by
  refine ⟨?_, ?_, ?_⟩
  · intro h btree items t a b fuel rebalance hinv ha hb hkey hfuel
    exact hinv.add_sameLinks_iff horder ha hb hkey hfuel rebalance
  · intro h btree items t a q fuel rebalance hinv ha hrejected hfuel
    exact hinv.remove_sameLinks_iff ha hrejected hfuel rebalance
  · intro h btree items t ops fuel hinv hpending hoffered hcareful hfuel
    obtain ⟨h', g', t', hrun, hghost, hinv', hinvGhost⟩ :=
      hinv.run_accepted horder hinv rfl hpending hoffered hcareful hfuel
    refine ⟨h', g', t', hrun, hghost, hinv', hinvGhost, ?_⟩
    have hsame := hinvGhost.represents.sameLinks_iff.mpr hinv'.represents
    exact (SameLinks.congr fun x ↦ hinvGhost.perm.mem_iff).mp hsame

/-- A heap in which item 2 has the key of item 0. -/
def repeated : Heap ℕ ℤ Unit :=
  { numbered with key := fun a ↦ if a = 2 then 0 else a }

/-- Item 2 is rejected and removed before item 1 comes to the right of item 0. -/
theorem duplicates_early :
    ∃ h' g' : Heap ℕ ℤ Unit,
      runOps (fun x y : ℤ ↦ x - y) 4 () [.add (some 0) false, .add (some 2) false,
        .remove (some 2) false, .add (some 1) true] repeated = some h' ∧
      runOps (fun x y : ℤ ↦ x - y) 4 () [.add (some 0) false, .add (some 1) true] repeated =
        some g' ∧
      SameLinks g' h' () [1, 0] := by
  have hempty : Holds (fun x y : ℤ ↦ x - y) repeated () [] nil := Holds.empty _ rfl
  have hpending : Pending repeated () ([] : List ℕ) := fun a _ howner ↦ by cases howner
  have hcareful : CarefulRun (fun x y : ℤ ↦ x - y) 4 () [.add (some 0) false,
      .add (some 2) false, .remove (some 2) false, .add (some 1) true] repeated [] := by
    refine ⟨fun b hb ↦ absurd hb (List.not_mem_nil), fun h₁ hrun ↦ ?_⟩
    obtain rfl := Option.some.inj hrun
    refine ⟨fun b hb _ ↦ ?_, fun h₂ hrun ↦ ?_⟩
    · obtain rfl : b = 0 := List.mem_singleton.mp hb
      exact ⟨rfl, fun hrebalance ↦ absurd hrebalance (by simp)⟩
    obtain rfl := Option.some.inj hrun
    refine ⟨fun _ _ ↦ ⟨fun q _ hparent ↦ ?_, fun hrebalance ↦ absurd hrebalance (by simp)⟩,
      fun h₃ hrun ↦ ?_⟩
    · obtain rfl : 0 = q := Option.some.inj hparent
      rfl
    obtain rfl := Option.some.inj hrun
    refine ⟨fun b hb hkey ↦ ?_, fun _ _ ↦ trivial⟩
    obtain rfl : b = 0 := List.mem_singleton.mp hb
    cases hkey
  obtain ⟨h', g', t, hrun, hghost, -, -, hsame⟩ :=
    (duplicates_iff strictTotal_sub.weakOrder).2.2 repeated () [] nil
      [.add (some 0) false, .add (some 2) false, .remove (some 2) false, .add (some 1) true] 4
      hempty hpending (by simp [OfferedRun, Op.Offered, Op.itemsMeant, Op.Accepted, Op.items,
        Op.keys, repeated]) hcareful le_rfl
  exact ⟨h', g', hrun, hghost, hsame⟩

/-- Offered after item 1, item 2 is hung below it; and offered before, it takes item 1 with it when
it is removed. -/
theorem duplicates_late :
    (∃ (h h' : Heap ℕ ℤ Unit) (t : BinaryTree ℕ), Holds (fun x y : ℤ ↦ x - y) h () [1, 0] t ∧
      h.key 2 - h.key 0 = 0 ∧
      balancedBTreeAdd (fun x y : ℤ ↦ x - y) 3 h () (some 2) false = some h' ∧
      h.left 1 = none ∧ h'.left 1 = some 2) ∧
    ∃ h' g' : Heap ℕ ℤ Unit,
      runOps (fun x y : ℤ ↦ x - y) 4 () [.add (some 0) false, .add (some 2) false,
        .add (some 1) false, .remove (some 2) false] repeated = some h' ∧
      runOps (fun x y : ℤ ↦ x - y) 4 () [.add (some 0) false, .add (some 1) false] repeated =
        some g' ∧
      g'.right 0 = some 1 ∧ h'.right 0 = none := by
  refine ⟨?_, _, _, rfl, rfl, rfl, rfl⟩
  have hvalid : ValidRun [.add (some 0) false, .add (some 1) false] [] repeated.key := by
    simp [ValidRun, Op.Valid, Op.items, Op.keys, repeated]
  obtain ⟨h, t, hrun, -, hinv, -⟩ :=
    (Holds.empty (fun x y : ℤ ↦ x - y) (rfl : repeated.root () = none)).runOps strictTotal_sub
      hvalid (le_rfl : 2 ≤ 2)
  obtain rfl := Option.some.inj hrun
  exact ⟨_, _, t, hinv, rfl, rfl, rfl, rfl⟩

end Runs

end HavokMud.BTree
