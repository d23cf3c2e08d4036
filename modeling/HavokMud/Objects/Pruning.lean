import HavokMud.Objects.Listing

/-!
# Removing from the indexes

An object that leaves an index leaves the tree of an outer item, which is removed when its tree gets
empty.
-/

namespace HavokMud.Objects

open BinaryTree SearchTree BTree

variable (garbage : Key → Key → ℤ) {fuel : ℕ} {s s' : Indexes} {tree tree' : Tree → BinaryTree Item}
  {t : Tree} {key : Key} {item : Item} {obj : Address} {r : List ℕ} {n : ℕ}

namespace Indexed

/-- An item of an object leaves the tree of an outer item. -/
theorem removeInner (hs : Indexed s tree) (ht : t.Outer) (hn : .outer n ∈ inorder (tree t))
    (hitem : item ∈ inorder (tree (.sub n))) (hkey : s.heap.key item = .object obj)
    (hfuel : (tree (.sub n)).numNodes ≤ fuel) :
    ∃ h' t', balancedBTreeRemove fuel s.heap (.sub n) (some item) true = some h' ∧
      Indexed { s with heap := clearItem h' item } (Function.update tree (.sub n) t') ∧
      (inorder t').Perm ((inorder (tree (.sub n))).erase item) ∧
      ((clearItem h' item).root (.sub n) = none ↔ t' = .nil) ∧
      Loses s.heap tree (clearItem h' item) (Function.update tree (.sub n) t') t
        (rank (s.heap.key (.outer n))) obj := by
  obtain ⟨h', t', hrun, hkey', -, hforest', hperm⟩ := hs.forest.remove hitem hfuel
  have hnodup := (hs.forest.represents (.sub n)).nodup
  have hsame : ∀ b, b ≠ .sub n → Function.update tree (.sub n) t' b = tree b :=
    fun b hb ↦ Function.update_of_ne hb _ _
  have hmem' : ∀ a, a ∈ inorder t' ↔ a ≠ item ∧ a ∈ inorder (tree (.sub n)) := by
    intro a
    rw [hperm.mem_iff, hnodup.mem_erase_iff]
  have hmem : ∀ b, ∀ a ∈ inorder (Function.update tree (.sub n) t' b), a ≠ item ∧
      a ∈ inorder (tree b) := by
    intro b a ha
    by_cases hb : b = .sub n
    · subst hb
      rw [Function.update_self] at ha
      exact (hmem' a).mp ha
    · rw [hsame b hb] at ha
      refine ⟨?_, ha⟩
      rintro rfl
      exact hb (hs.forest.eq_of_mem ha hitem)
  have hkeys : ∀ a, a ≠ item → (clearItem h' item).key a = s.heap.key a := by
    intro a ha
    rw [← hkey']
    exact Function.update_of_ne ha _ _
  have hnotOuter : ∀ m, .outer m ≠ item := by
    rintro m rfl
    obtain ⟨obj', hobj', -⟩ := hs.inner n _ hitem
    cases hobj'
  have houterTree : ∀ b, b.Outer → Function.update tree (.sub n) t' b = tree b := by
    intro b hb
    refine hsame b ?_
    rintro rfl
    exact hb
  have hforest : Forest Suits rank (clearItem h' item) (Function.update tree (.sub n) t') := by
    refine hforest'.congr ?_ fun _ ↦ rfl
    intro b a ha
    have hne := (hmem b a ha).1
    simp [clearItem, setKey, hne]
  have hs' : Indexed { s with heap := clearItem h' item } (Function.update tree (.sub n) t') := by
    refine ⟨hforest, ?_, ?_, ?_, ?_⟩
    · intro b hb a ha
      exact hs.outer b hb a (hmem b a ha).2
    · intro b hb a ha a' ha' hrank
      refine hs.distinct b hb a (hmem b a ha).2 a' (hmem b a' ha').2 ?_
      simpa [hkeys a (hmem b a ha).1, hkeys a' (hmem b a' ha').1] using hrank
    · intro m a ha
      obtain ⟨obj', hobj', hkeya⟩ := hs.inner m a (hmem _ a ha).2
      exact ⟨obj', hobj', (hkeys a (hmem _ a ha).1).trans hkeya⟩
    · intro m a ha
      obtain ⟨b, hb, hmb, hkind⟩ := hs.hung m a (hmem _ a ha).2
      exact ⟨b, hb, by rw [houterTree b hb]; exact hmb, hkind⟩
  refine ⟨h', t', hrun, hs', hperm, ?_, ?_⟩
  · have hlinks := (hforest.represents (.sub n)).links
    rw [Function.update_self] at hlinks
    constructor
    · intro hroot
      rw [hroot] at hlinks
      cases t' with
      | nil => rfl
      | node => simp [subtree_node] at hlinks
    · rintro rfl
      exact hlinks
  · have hcount : ∀ o, copiesIn (clearItem h' item) (Function.update tree (.sub n) t') n o +
        (if o = obj then 1 else 0) = copiesIn s.heap tree n o := by
      intro o
      have hold : copiesIn (clearItem h' item) (Function.update tree (.sub n) t') n o =
          ((inorder (tree (.sub n))).erase item).countP fun a ↦ s.heap.key a = .object o := by
        rw [copiesIn, Function.update_self, hperm.countP_eq]
        refine List.countP_congr ?_
        intro a ha
        rw [hkeys a ((hnodup.mem_erase_iff).mp ha).1]
      rw [hold, copiesIn, (List.perm_cons_erase hitem).countP_eq, List.countP_cons, hkey]
      congr 1
      simp [eq_comm]
    have hn' : .outer n ∈ inorder (Function.update tree (.sub n) t' t) := by
      rw [houterTree t ht]
      exact hn
    refine ⟨?_, ?_⟩
    · rw [hs.copies_of_mem ht hn rfl, hs'.copies_of_mem ht hn' (by rw [hkeys _ (hnotOuter n)]),
        ← hcount obj, if_pos rfl]
      rfl
    · refine hs.copies_elsewhere hs' hn houterTree (fun m ↦ hkeys _ (hnotOuter m)) ?_ ?_
      · intro m hm o
        refine copiesIn_congr (by rw [hsame (.sub m) (by simpa using hm)]) ?_
        intro a ha
        refine hkeys a ?_
        rintro rfl
        have heq := hs.forest.eq_of_mem ha hitem
        exact hm (by simpa using heq)
      · intro o ho
        rw [← hcount o, if_neg ho]
        rfl

/-- An outer item whose tree is empty lists nothing, and is removed. -/
theorem removeOuter (hs : Indexed s tree) (ht : t.Outer) (hn : .outer n ∈ inorder (tree t))
    (hnil : tree (.sub n) = .nil) (hfuel : (tree t).numNodes ≤ fuel) :
    ∃ h' t', balancedBTreeRemove fuel s.heap t (some (.outer n)) true = some h' ∧
      Indexed { s with heap := h' } (Function.update tree t t') ∧
      (inorder t').Perm ((inorder (tree t)).erase (.outer n)) ∧
      ∀ b r obj, b.Outer →
        copies h' (Function.update tree t t') b r obj = copies s.heap tree b r obj := by
  obtain ⟨h', t', hrun, hkey', -, hforest', hperm⟩ := hs.forest.remove hn hfuel
  have hnodup := (hs.forest.represents t).nodup
  have hmem : ∀ b a, a ∈ inorder (Function.update tree t t' b) ↔
      a ≠ .outer n ∧ a ∈ inorder (tree b) := by
    intro b a
    by_cases hb : b = t
    · subst hb
      rw [Function.update_self, hperm.mem_iff, hnodup.mem_erase_iff]
    · rw [Function.update_of_ne hb]
      refine ⟨fun ha ↦ ⟨?_, ha⟩, And.right⟩
      rintro rfl
      exact hb (hs.forest.eq_of_mem ha hn)
  have hsub : ∀ m, Function.update tree t t' (.sub m) = tree (.sub m) := by
    intro m
    refine Function.update_of_ne ?_ _ _
    rintro rfl
    exact ht
  have hs' : Indexed { s with heap := h' } (Function.update tree t t') := by
    refine ⟨hforest', ?_, ?_, ?_, ?_⟩
    · intro b hb a ha
      exact hs.outer b hb a ((hmem b a).mp ha).2
    · intro b hb a ha a' ha' hrank
      refine hs.distinct b hb a ((hmem b a).mp ha).2 a' ((hmem b a').mp ha').2 ?_
      simpa [hkey'] using hrank
    · intro m a ha
      rw [hsub] at ha
      simpa [hkey'] using hs.inner m a ha
    · intro m a ha
      rw [hsub] at ha
      obtain ⟨b, hb, hm, hkind⟩ := hs.hung m a ha
      refine ⟨b, hb, (hmem b _).mpr ⟨?_, hm⟩, hkind⟩
      rintro ⟨⟩
      rw [hnil] at ha
      cases ha
  refine ⟨h', t', hrun, hs', hperm, ?_⟩
  intro b r obj hb
  refine hs.copies_congr hs' hb fun m k ↦ ?_
  have hcount : copiesIn h' (Function.update tree t t') m obj = copiesIn s.heap tree m obj :=
    copiesIn_congr (by rw [hsub]) fun a _ ↦ by rw [hkey']
  by_cases hm : m = n
  · subst hm
    have hempty : copiesIn s.heap tree m obj = 0 := by
      rw [copiesIn, hnil]
      rfl
    rw [hcount, hempty]
    exact iff_of_false (fun hnow ↦ by cases hnow.2.2) fun hbefore ↦ by cases hbefore.2.2
  · have hmem' : .outer m ∈ inorder (Function.update tree t t' b) ↔ .outer m ∈ inorder (tree b) :=
      (hmem b _).trans (and_iff_right (by simpa using hm))
    rw [hmem', hkey', hcount]

/-- The tree of an outer item has no item for an object that the item does not list. -/
theorem find_none (hs : Indexed s tree) (hn : .outer n ∈ inorder (tree t)) (ht : t.Outer)
    (hcopies : copies s.heap tree t (rank (s.heap.key (.outer n))) obj = 0)
    (hfuel : ∀ b, (tree b).numNodes ≤ fuel) :
    balancedBTreeFind (keyCompare garbage) s.heap fuel (.sub n) (.object obj) = some none := by
  have hsuits : Suits (.sub n) (.object obj) := ⟨obj, rfl⟩
  rcases hs.forest.find (orders garbage) hsuits (hfuel _) with ⟨hfind, -⟩ | ⟨a, ha, hrank, -⟩
  · exact hfind
  · obtain ⟨obj', -, hkey⟩ := hs.inner n a ha
    have hobj : obj' = obj := by
      rw [hkey] at hrank
      simpa [rank, Fin.val_inj] using hrank
    rw [hobj] at hkey
    have hpos := (hs.copies_pos_iff ht).mpr ⟨n, hn, rfl, a, ha, hkey⟩
    omega

/-- Nothing is removed for an object that the index looked in does not list, whatever the key. -/
theorem indexRemove_absent (hs : Indexed s tree) (ht : t.Outer) (pruned : Option Tree) (key : Key)
    (hcopies : ∀ r, copies s.heap tree t r obj = 0) (hfuel : ∀ b, (tree b).numNodes ≤ fuel) :
    Objects.indexRemove garbage fuel (some t) pruned key obj s = some s := by
  have hfind : balancedBTreeFind (keyCompare garbage) s.heap fuel t key =
      some (SearchTree.find (probe (keyCompare garbage) s.heap key) (tree t)) :=
    balancedBTreeFind_eq (hs.forest.represents t) (hfuel t) key
  cases hfound : SearchTree.find (probe (keyCompare garbage) s.heap key) (tree t) with
  | none => simp [Objects.indexRemove, findIn, hfind, hfound]
  | some a =>
      obtain ⟨ha, -⟩ := find_some hfound
      obtain ⟨n, -, rfl⟩ := hs.outer t ht a ha
      have hnone := hs.find_none garbage ha ht (hcopies _) hfuel
      simp [Objects.indexRemove, findIn, hfind, hfound, Item.subtree, hnone]

/-- One turn of `objectKeywordTreeRemove`. -/
theorem indexRemove (hs : Indexed s tree) (ht : t.Outer) (hkey : Suits t key)
    (hfuel : ∀ b, (tree b).numNodes ≤ fuel) (obj : Address) :
    ∃ s' tree', Objects.indexRemove garbage fuel (some t) (some t) key obj s = some s' ∧
      Indexed s' tree' ∧ SameObjects s s' ∧ Shrinks tree tree' ∧
      Loses s.heap tree s'.heap tree' t (rank key) obj := by
  rcases hs.forest.find (orders garbage) hkey (hfuel t) with ⟨hfind, hnew⟩ | ⟨a, ha, hr, hfind⟩
  · refine ⟨s, tree, ?_, hs, ⟨rfl, rfl, rfl, rfl⟩, fun b ↦ List.Subperm.refl _, ?_, ?_⟩
    · simp [Objects.indexRemove, findIn, hfind]
    · rw [copies_of_ne hnew]
    · exact fun _ _ _ _ _ ↦ rfl
  · obtain ⟨n, -, rfl⟩ := hs.outer t ht a ha
    have hsuits : Suits (.sub n) (.object obj) := ⟨obj, rfl⟩
    rcases hs.forest.find (orders garbage) hsuits (hfuel _) with
      ⟨hfind', hnone⟩ | ⟨x, hx, hrx, hfind'⟩
    · refine ⟨s, tree, ?_, hs, ⟨rfl, rfl, rfl, rfl⟩, fun b ↦ List.Subperm.refl _, ?_, ?_⟩
      · simp [Objects.indexRemove, findIn, hfind, Item.subtree, hfind']
      · have hzero : copiesIn s.heap tree n obj = 0 := by
          refine List.countP_eq_zero.mpr ?_
          intro y hy hyobj
          exact hnone y hy (by simpa using congrArg rank (of_decide_eq_true hyobj))
        rw [hs.copies_of_mem ht ha hr, hzero]
      · exact fun _ _ _ _ _ ↦ rfl
    · have hkeyx : s.heap.key x = .object obj := by
        obtain ⟨obj', -, hkeyx⟩ := hs.inner n x hx
        rw [hkeyx] at hrx ⊢
        have hval : obj' = obj := by simpa [rank, Fin.val_inj] using hrx
        rw [hval]
      obtain ⟨h₁, t₁, hrun₁, hs₁, hperm₁, hroot, hloses⟩ := hs.removeInner ht ha hx hkeyx (hfuel _)
      have hshrinks : Shrinks tree (Function.update tree (.sub n) t₁) := by
        intro b
        by_cases hb : b = .sub n
        · subst hb
          rw [Function.update_self]
          exact hperm₁.subperm.trans List.erase_sublist.subperm
        · rw [Function.update_of_ne hb]
      have htn : t ≠ .sub n := by
        rintro rfl
        exact ht
      rw [hr] at hloses
      cases hempty : (clearItem h₁ x).root (.sub n) with
      | some root =>
          refine ⟨{ s with heap := clearItem h₁ x }, _, ?_, hs₁, ⟨rfl, rfl, rfl, rfl⟩, hshrinks,
            hloses⟩
          simp [Objects.indexRemove, findIn, hfind, Item.subtree, hfind', hrun₁, hempty]
      | none =>
          obtain rfl := hroot.mp hempty
          have ha₁ : .outer n ∈ inorder (Function.update tree (.sub n) .nil t) := by
            rw [Function.update_of_ne htn]
            exact ha
          have hfuel₁ : (Function.update tree (.sub n) .nil t).numNodes ≤ fuel := by
            rw [Function.update_of_ne htn]
            exact hfuel t
          obtain ⟨h₂, t₂, hrun₂, hs₂, hperm₂, hcopies⟩ :=
            hs₁.removeOuter ht ha₁ (Function.update_self _ _ _) hfuel₁
          refine ⟨{ s with heap := h₂ }, _, ?_, hs₂, ⟨rfl, rfl, rfl, rfl⟩, ?_, ?_, ?_⟩
          · have hrun₂' : balancedBTreeRemove fuel (clearItem h₁ x) t (some (.outer n)) true =
                some h₂ := hrun₂
            simp [Objects.indexRemove, findIn, hfind, Item.subtree, hfind', hrun₁, hempty, hrun₂']
          · intro b
            refine List.Subperm.trans ?_ (hshrinks b)
            by_cases hb : b = t
            · subst hb
              rw [Function.update_self]
              exact hperm₂.subperm.trans List.erase_sublist.subperm
            · rw [Function.update_of_ne hb]
          · exact (hcopies t _ obj ht).trans hloses.here
          · intro t' r' obj' ht' hne
            exact (hcopies t' r' obj' ht').trans (hloses.elsewhere t' r' obj' ht' hne)

end Indexed

end HavokMud.Objects
