import HavokMud.BTree.Runs

/-!
# Duplicate keys

`BalancedBTreeAdd` notices that a key is on the tree already when the search for the new item's
parent ends at the item that has it.  The rejected item is left with its tree and a parent, which a
`BalancedBTreeRemove` of it follows.  Both are harmless while nothing is on the right of the parent,
and other items may come and go.
-/

namespace HavokMud.BTree

open BinaryTree SearchTree

variable {ι κ τ : Type}

/-! ## Links -/

/-- The root of the tree and the links of its items are the same. -/
structure SameLinks (h h' : Heap ι κ τ) (btree : τ) (items : List ι) : Prop where
  root : h'.root btree = h.root btree
  left : ∀ a ∈ items, h'.left a = h.left a
  right : ∀ a ∈ items, h'.right a = h.right a
  parent : ∀ a ∈ items, h'.parent a = h.parent a

section Links

variable {h h' : Heap ι κ τ} {btree : τ} {t t' : BinaryTree ι} {parent parent' p : Option ι}

/-- The links below a pointer form one tree only. -/
theorem Subtree.unique (hsub : Subtree h parent p t) (hsub' : Subtree h parent' p t') : t = t' := by
  induction t generalizing parent parent' p t' with
  | nil =>
      obtain rfl := subtree_nil.mp hsub
      cases t' with
      | nil => rfl
      | node a l r => cases hsub'.1
  | node a l r ihl ihr =>
      obtain ⟨rfl, -, hl, hr⟩ := hsub
      cases t' with
      | nil => cases hsub'
      | node b l' r' =>
          obtain ⟨hb, -, hl', hr'⟩ := hsub'
          obtain rfl := Option.some.inj hb
          rw [ihl hl hl', ihr hr hr']

theorem Represents.unique (hrep : Represents h btree t) (hrep' : Represents h btree t') : t = t' :=
  hrep.links.unique hrep'.links

theorem Subtree.same (hsub : Subtree h parent p t) (hsub' : Subtree h' parent p t) {a : ι}
    (ha : a ∈ inorder t) :
    h'.left a = h.left a ∧ h'.right a = h.right a ∧ h'.parent a = h.parent a := by
  induction t generalizing parent p with
  | nil => simp at ha
  | node b l r ihl ihr =>
      obtain ⟨rfl, hpar, hl, hr⟩ := hsub
      obtain ⟨-, hpar', hl', hr'⟩ := hsub'
      have hleft : h'.left b = h.left b := by
        cases l with
        | nil => rw [subtree_nil.mp hl, subtree_nil.mp hl']
        | node c l₁ l₂ => rw [hl.1, hl'.1]
      have hright : h'.right b = h.right b := by
        cases r with
        | nil => rw [subtree_nil.mp hr, subtree_nil.mp hr']
        | node c r₁ r₂ => rw [hr.1, hr'.1]
      rw [inorder_node, List.mem_append, List.mem_cons] at ha
      rcases ha with ha | rfl | ha
      · exact ihl hl (hleft ▸ hl') ha
      · exact ⟨hleft, hright, hpar'.trans hpar.symm⟩
      · exact ihr hr (hright ▸ hr') ha

/-- The links of a tree are unchanged exactly if it is the same tree. -/
theorem Represents.sameLinks_iff (hrep : Represents h btree t) :
    SameLinks h h' btree (inorder t) ↔ Represents h' btree t := by
  constructor
  · intro hsame
    refine ⟨?_, hrep.nodup⟩
    rw [hsame.root]
    exact hrep.links.congr hsame.left hsame.right hsame.parent
  · intro hrep'
    have hroot : h'.root btree = h.root btree := by
      have hlinks := hrep.links
      have hlinks' := hrep'.links
      cases t with
      | nil => rw [subtree_nil.mp hlinks, subtree_nil.mp hlinks']
      | node a l r => rw [hlinks.1, hlinks'.1]
    have hlinks' := hrep'.links
    rw [hroot] at hlinks'
    exact ⟨hroot, fun a ha ↦ (hrep.links.same hlinks' ha).1,
      fun a ha ↦ (hrep.links.same hlinks' ha).2.1, fun a ha ↦ (hrep.links.same hlinks' ha).2.2⟩

theorem SameLinks.congr {items items' : List ι} (hmem : ∀ a, a ∈ items ↔ a ∈ items') :
    SameLinks h h' btree items ↔ SameLinks h h' btree items' := by
  constructor
  · exact fun h ↦ ⟨h.root, fun a ha ↦ h.left a ((hmem a).mpr ha),
      fun a ha ↦ h.right a ((hmem a).mpr ha), fun a ha ↦ h.parent a ((hmem a).mpr ha)⟩
  · exact fun h ↦ ⟨h.root, fun a ha ↦ h.left a ((hmem a).mp ha),
      fun a ha ↦ h.right a ((hmem a).mp ha), fun a ha ↦ h.parent a ((hmem a).mp ha)⟩

end Links

/-! ## Adding -/

section Order

variable {keyCompare : κ → κ → ℤ} {h : Heap ι κ τ} {t : BinaryTree ι}

/-- The search for the parent of a key that is on the tree ends at the item that has it, if nothing
is on the right of that. -/
theorem findParentLoop_duplicate {key : κ} {parent p : Option ι} {b : ι}
    (hcut : Cut (probe keyCompare h key) (inorder t)) (hsub : Subtree h parent p t)
    (hb : b ∈ inorder t) (hzero : keyCompare key (h.key b) = 0) (hright : h.right b = none)
    {fuel : ℕ} (hfuel : t.numNodes ≤ fuel) (prev : Option ι) :
    findParentLoop keyCompare h key fuel prev p = some (some b) := by
  induction t generalizing parent p fuel prev with
  | nil => simp at hb
  | node a l r ihl ihr =>
      obtain ⟨rfl, -, hl, hr⟩ := hsub
      obtain ⟨hcutl, hcutr, hla, har, -⟩ := Cut.node_iff.mp hcut
      rw [numNodes] at hfuel
      obtain ⟨fuel, rfl⟩ := Nat.exists_eq_succ_of_ne_zero (by omega : fuel ≠ 0)
      rw [inorder_node, List.mem_append, List.mem_cons] at hb
      rw [findParentLoop]
      rcases hb with hb | rfl | hb
      · have hneg : keyCompare key (h.key a) < 0 := hla b hb (le_of_eq hzero)
        rw [if_pos hneg]
        exact ihl hcutl hl hb (by omega) _
      · rw [if_neg (by omega), hright]
        cases fuel <;> rfl
      · have hneg : ¬ keyCompare key (h.key a) < 0 := fun hneg ↦ by
          have hbelow : keyCompare key (h.key b) < 0 := har b hb (le_of_lt hneg)
          omega
        rw [if_neg hneg]
        exact ihr hcutr hr hb (by omega) _

/-- At a hole whose parent has the probed key nothing is on the right of the parent. -/
theorem Context.right_eq_none {btree : τ} {key : κ} {c : Spine ι} {q : ι}
    (hctx : Context h btree c (some q) none) (hside : HoleSide (probe keyCompare h key) c)
    (hzero : keyCompare key (h.key q) = 0) : h.right q = none := by
  cases c with
  | top => cases hctx.1
  | left a sibling up =>
      obtain rfl := Option.some.inj hctx.1
      have hneg : keyCompare key (h.key q) < 0 := hside
      omega
  | right a sibling up =>
      obtain rfl := Option.some.inj hctx.1
      exact hctx.2.1

end Order

section Add

theorem represents_rebalanced_iff {h : Heap ι κ τ} {btree : τ} {t : BinaryTree ι}
    {rebalance : Bool} (hrep : Represents h btree (rebalanced rebalance t)) :
    Represents h btree t ↔ (rebalance = true → Balanced t) := by
  cases rebalance with
  | false => exact iff_of_true hrep (by simp)
  | true =>
      constructor
      · intro hrep' _
        exact balance_eq_self_iff.mp (hrep.unique hrep')
      · intro hbalanced
        rwa [rebalanced, if_pos rfl, balance_eq_self_iff.mpr (hbalanced rfl)] at hrep

variable [DecidableEq ι] [DecidableEq τ]
variable {keyCompare : κ → κ → ℤ} {h : Heap ι κ τ} {btree : τ} {items : List ι}
  {t : BinaryTree ι} {a b : ι} {fuel : ℕ}

/-- What `BalancedBTreeAdd` leaves in an item that it rejects. -/
structure Rejected (h : Heap ι κ τ) (btree : τ) (a : ι) (parent : ι) : Prop where
  owner : h.btree a = some btree
  left : h.left a = none
  right : h.right a = none
  parent : h.parent a = some parent

/-- An item is rejected if nothing is on the right of the item with its key. -/
theorem Holds.add_rejected (horder : WeakOrder keyCompare) (hinv : Holds keyCompare h btree items t)
    (ha : a ∉ items) (hb : b ∈ items) (hkey : keyCompare (h.key a) (h.key b) = 0)
    (hfuel : items.length < fuel) (hright : h.right b = none) (rebalance : Bool) :
    ∃ h', balancedBTreeAdd keyCompare fuel h btree (some a) rebalance = some h' ∧
      Represents h' btree (BTree.rebalanced rebalance t) ∧
      Frame btree items (prepared h btree a (some b)) h' := by
  have hmem : ∀ x, x ∈ inorder t ↔ x ∈ items := fun x ↦ hinv.perm.mem_iff
  have hat : a ∉ inorder t := fun hmema ↦ ha ((hmem a).mp hmema)
  have hne : ∀ x ∈ inorder t, x ≠ a := fun x hx heq ↦ hat (heq ▸ hx)
  have hsize : t.numNodes ≤ fuel := by rw [hinv.numNodes_eq]; exact hfuel.le
  -- clearing the links of the new item touches nothing on the tree
  have hfind : findParentLoop keyCompare
      (((h.setBtree a (some btree)).setLeft a none).setRight a none)
      (h.key a) fuel none (h.root btree) = some (some b) := by
    have hcut : Cut (probe keyCompare
        (((h.setBtree a (some btree)).setLeft a none).setRight a none) (h.key a)) (inorder t) :=
      horder.cut hinv.sorted (h.key a)
    refine findParentLoop_duplicate hcut (hinv.represents.links.congr (fun x hx ↦ ?_)
      (fun x hx ↦ ?_) fun x _ ↦ rfl) ((hmem b).mpr hb) hkey ?_ hsize none
    · simp [hne x hx]
    · simp [hne x hx]
    · simp [hright]
  obtain ⟨h', hrun, hframe, hrep⟩ :=
    balancedBTreeAdd_rejected hinv.represents hat hsize hfind hkey rebalance
  exact ⟨h', hrun, hrep, hframe.mono fun x hx ↦ (hmem x).mp hx⟩

/-- The links of the tree are unchanged exactly if nothing is on the right of the item with the key,
and the tree is balanced already if rebalancing is asked for. -/
theorem Holds.add_sameLinks_iff (horder : WeakOrder keyCompare)
    (hinv : Holds keyCompare h btree items t) (ha : a ∉ items) (hb : b ∈ items)
    (hkey : keyCompare (h.key a) (h.key b) = 0) (hfuel : items.length < fuel) (rebalance : Bool) :
    ∃ h', balancedBTreeAdd keyCompare fuel h btree (some a) rebalance = some h' ∧
      (SameLinks h h' btree items ↔ h.right b = none ∧ (rebalance = true → Balanced t)) := by
  have hmem : ∀ x, x ∈ inorder t ↔ x ∈ items := fun x ↦ hinv.perm.mem_iff
  have hat : a ∉ inorder t := fun hmema ↦ ha ((hmem a).mp hmema)
  have hsize : t.numNodes < fuel := by rw [hinv.numNodes_eq]; exact hfuel
  by_cases hright : h.right b = none
  · obtain ⟨h', hrun, hrep, -⟩ :=
      hinv.add_rejected horder ha hb hkey hfuel hright rebalance
    refine ⟨h', hrun, ?_⟩
    rw [← SameLinks.congr hmem, hinv.represents.sameLinks_iff]
    exact (represents_rebalanced_iff hrep).trans (by simp [hright])
  · obtain ⟨c, parent, hfind, hctx, hside, hplug, hins⟩ :=
      exists_hole keyCompare hinv.represents hat hsize.le
    have hkey' : ∀ q, parent = some q → keyCompare (h.key a) (h.key q) ≠ 0 := by
      rintro q rfl hzero
      have hq : q ∈ inorder t := by
        rw [← hplug, Spine.mem_plug]
        exact .inr hctx.parent_mem
      have hqa : q ≠ a := fun heq ↦ hat (heq ▸ hq)
      obtain rfl := (horder.cut hinv.sorted (h.key a)).eq_of_zero hq ((hmem b).mpr hb) hzero hkey
      have hnone := hctx.right_eq_none hside hzero
      exact hright (by simpa [prepared, hqa] using hnone)
    obtain ⟨h', hrun, -, hrep⟩ := balancedBTreeAdd_hung hinv.represents hat hsize hfind hctx hside
      hplug hins hkey' rebalance
    refine ⟨h', hrun, iff_of_false (fun hsame ↦ ?_) fun h ↦ hright h.1⟩
    -- the item is on the tree now
    rw [← SameLinks.congr hmem, hinv.represents.sameLinks_iff] at hsame
    have heq := congrArg inorder (hsame.unique hrep)
    rw [inorder_rebalanced] at heq
    exact hat (heq ▸ mem_inorder_insert.mpr (.inl rfl))

end Add

/-! ## Removing a rejected item -/

section Remove

variable [DecidableEq ι] [DecidableEq τ]
variable {keyCompare : κ → κ → ℤ} {h : Heap ι κ τ} {btree : τ} {items : List ι}
  {t : BinaryTree ι} {a q : ι} {fuel : ℕ}

/-- The rejected item is taken from the parent it names. -/
def unhooked (h : Heap ι κ τ) (btree : τ) (a q : ι) : Heap ι κ τ :=
  ((((h.relink btree (some q) a none).setLeft a none).setRight a none).setParent a none).setBtree a
    none

theorem Rejected.remove_eq (hrejected : Rejected h btree a q) (rebalance : Bool) :
    balancedBTreeRemove fuel h btree (some a) rebalance =
      if rebalance then
        balancedBTreeRebalance btree fuel (unhooked h btree a q) ((unhooked h btree a q).root btree)
      else some (unhooked h btree a q) := by
  have hweight : balancedBTreeWeight h fuel none = some 0 := by cases fuel <;> rfl
  have hleast : balancedBTreeFindLeast h fuel none = some none := by cases fuel <;> rfl
  have howner : ¬ h.btree a ≠ some btree := not_not.mpr hrejected.owner
  rw [balancedBTreeRemove]
  simp only [if_neg howner, hrejected.left, hrejected.right, hweight, hleast,
    Option.bind_eq_bind, Option.bind_some, lt_irrefl, if_false]
  rw [balancedBTreeReplace, if_neg (by simp), hrejected.parent]
  rfl

/-- Besides the links of the item only those of its parent can change, and they become `NULL`. -/
theorem unhooked_links (h : Heap ι κ τ) (btree : τ) (a q : ι) {x : ι} (hx : x ≠ a) :
    ((unhooked h btree a q).left x = h.left x ∨
        x = q ∧ h.left q = some a ∧ (unhooked h btree a q).left x = none) ∧
      ((unhooked h btree a q).right x = h.right x ∨
        x = q ∧ (unhooked h btree a q).right x = none) ∧
      (unhooked h btree a q).parent x = h.parent x ∧
      (unhooked h btree a q).btree x = h.btree x := by
  by_cases hq : x = q
  · subst hq
    by_cases hleft : h.left x = some a <;> simp [unhooked, Heap.relink, hleft, hx]
  · by_cases hleft : h.left q = some a <;> simp [unhooked, Heap.relink, hleft, hq, hx]

theorem root_unhooked (h : Heap ι κ τ) (btree : τ) (a q : ι) :
    (unhooked h btree a q).root = h.root := by
  by_cases hleft : h.left q = some a <;> simp [unhooked, Heap.relink, hleft]

theorem key_unhooked (h : Heap ι κ τ) (btree : τ) (a q : ι) :
    (unhooked h btree a q).key = h.key := by
  simp [unhooked]

theorem btree_unhooked (h : Heap ι κ τ) (btree : τ) (a q : ι) :
    (unhooked h btree a q).btree a = none := by
  simp [unhooked]

/-- If nothing is on the right of the parent, the tree does not notice. -/
theorem Represents.unhooked (hrep : Represents h btree t) (ha : a ∉ inorder t)
    (hright : q ∈ inorder t → h.right q = none) :
    Represents (BTree.unhooked h btree a q) btree t := by
  have hne : ∀ x ∈ inorder t, x ≠ a := fun x hx heq ↦ ha (heq ▸ hx)
  refine ⟨?_, hrep.nodup⟩
  rw [root_unhooked]
  refine hrep.links.congr (fun x hx ↦ ?_) (fun x hx ↦ ?_) fun x hx ↦ ?_
  · rcases (unhooked_links h btree a q (hne x hx)).1 with heq | ⟨rfl, hlink, -⟩
    · exact heq
    · exact absurd (hrep.links.child_link hx (.inl hlink)).1 ha
  · rcases (unhooked_links h btree a q (hne x hx)).2.1 with heq | ⟨rfl, hnone⟩
    · exact heq
    · rw [hnone, hright hx]
  · exact (unhooked_links h btree a q (hne x hx)).2.2.1

/-- Otherwise what is on the right of the parent is cut off. -/
theorem Represents.unhooked_cut (hrep : Represents h btree t) (ha : a ∉ inorder t)
    (hq : q ∈ inorder t) {m : ι} (hright : h.right q = some m) :
    ∃ t', Represents (BTree.unhooked h btree a q) btree t' ∧ t'.numNodes ≤ t.numNodes ∧
      m ∉ inorder t' := by
  have hleft : h.left q ≠ some a := fun hlink ↦
    ha (hrep.links.child_link hq (.inl hlink)).1
  obtain ⟨t', hrep', hsize, hmem⟩ := hrep.cutRight hq
  have hat : ∀ x ∈ inorder t', x ≠ a := fun x hx heq ↦ ha (heq ▸ hmem x hx)
  have hparent : h.parent m = some q := (hrep.links.child_link hq (.inr hright)).2
  refine ⟨t', ⟨?_, hrep'.nodup⟩, hsize, fun hm ↦ ?_⟩
  · have hroot : (BTree.unhooked h btree a q).root btree = (h.setRight q none).root btree := by
      rw [root_unhooked]
      rfl
    rw [hroot]
    refine hrep'.links.congr (fun x hx ↦ ?_) (fun x hx ↦ ?_) fun x hx ↦ ?_ <;>
      simp [BTree.unhooked, Heap.relink, hleft, hat x hx]
  · -- no link leads to it
    rcases hrep'.links.parent_link hm with ⟨-, hnone⟩ | ⟨p, -, hp, hlink⟩
    · rw [Heap.parent_setRight, hparent] at hnone
      cases hnone
    · rw [Heap.parent_setRight, hparent] at hp
      obtain rfl := Option.some.inj hp
      rcases hlink with hlink | hlink
      · exact hrep.links.sides_ne hrep.nodup hq hlink hright
      · simp at hlink

/-- A rejected item is removed without harm if nothing is on the right of the parent it names, or
that is off the tree. -/
theorem Holds.remove_rejected (hinv : Holds keyCompare h btree items t) (ha : a ∉ items)
    (hrejected : Rejected h btree a q) (hfuel : items.length ≤ fuel)
    (hright : q ∈ items → h.right q = none) (rebalance : Bool) :
    ∃ h', balancedBTreeRemove fuel h btree (some a) rebalance = some h' ∧
      Represents h' btree (BTree.rebalanced rebalance t) ∧
      Frame btree items (BTree.unhooked h btree a q) h' := by
  have hmem : ∀ x, x ∈ inorder t ↔ x ∈ items := fun x ↦ hinv.perm.mem_iff
  have hat : a ∉ inorder t := fun hmema ↦ ha ((hmem a).mp hmema)
  have hsize : t.numNodes ≤ fuel := by rw [hinv.numNodes_eq]; exact hfuel
  have hrep := hinv.represents.unhooked hat fun hq ↦ hright ((hmem q).mp hq)
  obtain ⟨h', hrun, hrep', hframe⟩ := rebalance_if_asked hrep hsize rebalance
  exact ⟨h', (hrejected.remove_eq rebalance).trans hrun, hrep',
    hframe.mono fun x hx ↦ (hmem x).mp hx⟩

/-- The links of the tree are unchanged exactly then, if the tree is balanced already when
rebalancing is asked for. -/
theorem Holds.remove_sameLinks_iff (hinv : Holds keyCompare h btree items t) (ha : a ∉ items)
    (hrejected : Rejected h btree a q) (hfuel : items.length ≤ fuel) (rebalance : Bool) :
    ∃ h', balancedBTreeRemove fuel h btree (some a) rebalance = some h' ∧
      (SameLinks h h' btree items ↔
        (q ∈ items → h.right q = none) ∧ (rebalance = true → Balanced t)) := by
  have hmem : ∀ x, x ∈ inorder t ↔ x ∈ items := fun x ↦ hinv.perm.mem_iff
  by_cases hright : q ∈ items → h.right q = none
  · obtain ⟨h', hrun, hrep, -⟩ := hinv.remove_rejected ha hrejected hfuel hright rebalance
    refine ⟨h', hrun, ?_⟩
    rw [← SameLinks.congr hmem, hinv.represents.sameLinks_iff]
    exact (represents_rebalanced_iff hrep).trans ⟨fun h ↦ ⟨hright, h⟩, And.right⟩
  · have hat : a ∉ inorder t := fun hmema ↦ ha ((hmem a).mp hmema)
    have hsize : t.numNodes ≤ fuel := by rw [hinv.numNodes_eq]; exact hfuel
    push Not at hright
    obtain ⟨hq, hright⟩ := hright
    obtain ⟨m, hm⟩ := Option.ne_none_iff_exists'.mp hright
    have hmt : m ∈ inorder t :=
      (hinv.represents.links.child_link ((hmem q).mpr hq) (.inr hm)).1
    obtain ⟨t', hrep, hsize', hcut⟩ := hinv.represents.unhooked_cut hat ((hmem q).mpr hq) hm
    obtain ⟨h', hrun, hrep', -⟩ := rebalance_if_asked hrep (hsize'.trans hsize) rebalance
    refine ⟨h', (hrejected.remove_eq rebalance).trans hrun,
      iff_of_false (fun hsame ↦ ?_) fun h ↦ hright (h.1 hq)⟩
    rw [← SameLinks.congr hmem, hinv.represents.sameLinks_iff] at hsame
    have heq := congrArg inorder (hsame.unique hrep')
    rw [inorder_rebalanced] at heq
    exact hcut (heq ▸ hmt)

end Remove

end HavokMud.BTree
