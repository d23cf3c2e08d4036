import HavokMud.BTree.Walks
import HavokMud.SearchTree.Arranged

/-!
# All trees of a heap

The items of several trees live in one heap, and an edit of one tree must leave the others as they
are.  An item on a tree names that tree, so no item is on two of them.
-/

namespace HavokMud.BTree

open BinaryTree SearchTree

variable {ι κ τ ω : Type} [LinearOrder ω]

/-- Among the keys that suit a tree the callback compares by a rank. -/
structure Orders (keyCompare : κ → κ → ℤ) (suits : τ → κ → Prop) (rank : κ → ω) : Prop where
  neg_iff : ∀ b k k', suits b k → suits b k' → (keyCompare k k' < 0 ↔ rank k < rank k')
  pos_iff : ∀ b k k', suits b k → suits b k' → (0 < keyCompare k k' ↔ rank k' < rank k)

theorem Orders.zero_iff {keyCompare : κ → κ → ℤ} {suits : τ → κ → Prop} {rank : κ → ω}
    (horders : Orders keyCompare suits rank) {b : τ} {k k' : κ} (hk : suits b k)
    (hk' : suits b k') : keyCompare k k' = 0 ↔ rank k = rank k' :=
  eq_zero_iff_of_order (horders.neg_iff b k k' hk hk') (horders.pos_iff b k k' hk hk')

/-- `BalancedBTreeFind` on one tree finds an item of the rank that is searched for, if there is
one. -/
theorem find_of_agrees {keyCompare : κ → κ → ℤ} {h : Heap ι κ τ} {btree : τ} {t : BinaryTree ι}
    {rank : ι → ω} {sought : ω} {key : κ} {fuel : ℕ} (hrep : Represents h btree t)
    (hfuel : t.numNodes ≤ fuel) (harranged : Arranged rank t)
    (hagrees : Agrees (probe keyCompare h key) rank sought t) :
    balancedBTreeFind keyCompare h fuel btree key = some none ∧
        (∀ a ∈ inorder t, rank a ≠ sought) ∨
      ∃ a ∈ inorder t, rank a = sought ∧
        balancedBTreeFind keyCompare h fuel btree key = some (some a) := by
  rw [balancedBTreeFind_eq hrep hfuel key]
  cases hfind : SearchTree.find (probe keyCompare h key) t with
  | none => exact .inl ⟨rfl, (harranged.find_eq_none_iff hagrees).mp hfind⟩
  | some a =>
      obtain ⟨ha, hrank⟩ := find_mem_rank hagrees hfind
      exact .inr ⟨a, ha, hrank, rfl⟩

/-- The trees of a heap as finite trees, each of items that name it, in the order of their keys. -/
structure Forest (suits : τ → κ → Prop) (rank : κ → ω) (h : Heap ι κ τ) (tree : τ → BinaryTree ι) :
    Prop where
  represents : ∀ b, Represents h b (tree b)
  owner : ∀ b, ∀ a ∈ inorder (tree b), h.btree a = some b
  arranged : ∀ b, Arranged (fun a ↦ rank (h.key a)) (tree b)
  suits : ∀ b, ∀ a ∈ inorder (tree b), suits b (h.key a)

variable {keyCompare : κ → κ → ℤ} {suits : τ → κ → Prop} {rank : κ → ω} {h h' : Heap ι κ τ}
  {tree : τ → BinaryTree ι} {b : τ} {a : ι} {k : κ} {fuel : ℕ}

namespace Forest

/-- No item is on two trees. -/
theorem eq_of_mem (hforest : Forest suits rank h tree) {b' : τ} (hb : a ∈ inorder (tree b))
    (hb' : a ∈ inorder (tree b')) : b = b' := by
  have howner := hforest.owner b a hb
  rw [hforest.owner b' a hb'] at howner
  exact (Option.some_inj.mp howner).symm

/-- Only the items on the trees and the roots matter. -/
theorem congr (hforest : Forest suits rank h tree)
    (hitems : ∀ b, ∀ a ∈ inorder (tree b), h'.left a = h.left a ∧ h'.right a = h.right a ∧
      h'.parent a = h.parent a ∧ h'.btree a = h.btree a ∧ h'.key a = h.key a)
    (hroot : ∀ b, h'.root b = h.root b) : Forest suits rank h' tree where
  represents b := by
    refine ⟨?_, (hforest.represents b).nodup⟩
    rw [hroot]
    refine (hforest.represents b).links.congr ?_ ?_ ?_
    · exact fun a ha ↦ (hitems b a ha).1
    · exact fun a ha ↦ (hitems b a ha).2.1
    · exact fun a ha ↦ (hitems b a ha).2.2.1
  owner b a ha := by
    rw [(hitems b a ha).2.2.2.1]
    exact hforest.owner b a ha
  arranged b := by
    refine (hforest.arranged b).congr ?_
    intro a ha
    rw [(hitems b a ha).2.2.2.2]
  suits b a ha := by
    rw [(hitems b a ha).2.2.2.2]
    exact hforest.suits b a ha

theorem agrees (hforest : Forest suits rank h tree) (horders : Orders keyCompare suits rank)
    (hk : suits b k) : Agrees (fun a ↦ keyCompare k (h.key a)) (fun a ↦ rank (h.key a)) (rank k)
      (tree b) where
  neg_iff a ha := horders.neg_iff b k (h.key a) hk (hforest.suits b a ha)
  pos_iff a ha := horders.pos_iff b k (h.key a) hk (hforest.suits b a ha)

/-- `BalancedBTreeFind` finds an item of the rank of the key, if there is one. -/
theorem find (hforest : Forest suits rank h tree) (horders : Orders keyCompare suits rank)
    (hk : suits b k) (hfuel : (tree b).numNodes ≤ fuel) :
    balancedBTreeFind keyCompare h fuel b k = some none ∧
        (∀ a ∈ inorder (tree b), rank (h.key a) ≠ rank k) ∨
      ∃ a ∈ inorder (tree b), rank (h.key a) = rank k ∧
        balancedBTreeFind keyCompare h fuel b k = some (some a) :=
  find_of_agrees (hforest.represents b) hfuel (hforest.arranged b) (hforest.agrees horders hk)

variable [DecidableEq ι] [DecidableEq τ]

/-- An edit of one tree leaves a forest where it leaves that tree in order. -/
theorem edit (hforest : Forest suits rank h tree) {records : List ι} {o : Option τ}
    {t' : BinaryTree ι} (hframe : Frame b records (h.setBtree a o) h')
    (hrecords : ∀ x ∈ records, x ∉ inorder (tree b) → x = a)
    (ha : ∀ b', b' ≠ b → a ∉ inorder (tree b')) (hrep : Represents h' b t')
    (harranged : Arranged (fun x ↦ rank (h.key x)) t')
    (howner : ∀ x ∈ inorder t', (h.setBtree a o).btree x = some b)
    (hsuits : ∀ x ∈ inorder t', suits b (h.key x)) :
    Forest suits rank h' (Function.update tree b t') := by
  have hkey : h'.key = h.key := hframe.key
  have houtside : ∀ b', b' ≠ b → ∀ x ∈ inorder (tree b'), x ∉ records ∧ x ≠ a := by
    intro b' hb' x hx
    have hxa : x ≠ a := by
      rintro rfl
      exact ha b' hb' hx
    refine ⟨fun hmem ↦ hxa (hrecords x hmem fun hxb ↦ hb' ?_), hxa⟩
    exact hforest.eq_of_mem hx hxb
  refine ⟨?_, ?_, ?_, ?_⟩
  · intro b'
    by_cases hb' : b' = b
    · subst hb'
      rw [Function.update_self]
      exact hrep
    · rw [Function.update_of_ne hb']
      refine ⟨?_, (hforest.represents b').nodup⟩
      rw [hframe.root b' hb']
      refine (hforest.represents b').links.congr ?_ ?_ ?_
      · exact fun x hx ↦ hframe.left x (houtside b' hb' x hx).1
      · exact fun x hx ↦ hframe.right x (houtside b' hb' x hx).1
      · exact fun x hx ↦ hframe.parent x (houtside b' hb' x hx).1
  · intro b' x hx
    rw [hframe.owner]
    by_cases hb' : b' = b
    · subst hb'
      rw [Function.update_self] at hx
      exact howner x hx
    · rw [Function.update_of_ne hb'] at hx
      rw [Heap.btree_setBtree, if_neg (houtside b' hb' x hx).2]
      exact hforest.owner b' x hx
  · intro b'
    rw [hkey]
    by_cases hb' : b' = b
    · subst hb'
      rw [Function.update_self]
      exact harranged
    · rw [Function.update_of_ne hb']
      exact hforest.arranged b'
  · intro b' x hx
    rw [hkey]
    by_cases hb' : b' = b
    · subst hb'
      rw [Function.update_self] at hx
      exact hsuits x hx
    · rw [Function.update_of_ne hb'] at hx
      exact hforest.suits b' x hx

/-- `BalancedBTreeAdd` of an item on no tree adds it, or finds its key at its parent and does
not. -/
theorem add (hforest : Forest suits rank h tree) (horders : Orders keyCompare suits rank)
    (ha : ∀ b', a ∉ inorder (tree b')) (hk : suits b (h.key a))
    (hfuel : (tree b).numNodes < fuel) :
    ∃ h' t', balancedBTreeAdd keyCompare fuel h b (some a) true = some h' ∧ h'.key = h.key ∧
      h'.visited = h.visited ∧ Forest suits rank h' (Function.update tree b t') ∧
      ((inorder t').Perm (a :: inorder (tree b)) ∨
        (inorder t').Perm (inorder (tree b)) ∧
          ∃ y ∈ inorder (tree b), rank (h.key y) = rank (h.key a)) := by
  have hagrees := hforest.agrees horders hk
  have hrecords : ∀ x ∈ a :: inorder (tree b), x ∉ inorder (tree b) → x = a := by
    intro x hx hxb
    exact (List.mem_cons.mp hx).resolve_right hxb
  have howner : ∀ x ∈ inorder (tree b), (h.setBtree a (some b)).btree x = some b := by
    intro x hx
    rw [Heap.btree_setBtree]
    split_ifs
    · rfl
    · exact hforest.owner b x hx
  obtain ⟨h', hrun, hframe, hrep | ⟨hrep, y, hy, hzero⟩⟩ :=
    balancedBTreeAdd_cases keyCompare (hforest.represents b) (ha b) hfuel true
  · have hmem : ∀ x, x ∈ inorder (rebalanced true
        (SearchTree.insert (probe keyCompare h (h.key a)) a (tree b))) ↔
          x = a ∨ x ∈ inorder (tree b) := by
      intro x
      rw [inorder_rebalanced, mem_inorder_insert]
    refine ⟨h', rebalanced true (SearchTree.insert (probe keyCompare h (h.key a)) a (tree b)), hrun,
      hframe.key, hframe.visited, ?_, .inl ?_⟩
    · refine hforest.edit hframe hrecords (fun b' _ ↦ ha b') hrep ?_ ?_ ?_
      · exact ((hforest.arranged b).insert hagrees).balance
      · intro x hx
        rcases (hmem x).mp hx with rfl | hx
        · simp
        · exact howner x hx
      · intro x hx
        rcases (hmem x).mp hx with rfl | hx
        · exact hk
        · exact hforest.suits b x hx
    · rw [inorder_rebalanced]
      exact inorder_insert_perm _ _ _
  · refine ⟨h', rebalanced true (tree b), hrun, hframe.key, hframe.visited, ?_,
      .inr ⟨?_, y, hy, ?_⟩⟩
    · refine hforest.edit hframe hrecords (fun b' _ ↦ ha b') hrep ?_ ?_ ?_
      · exact (hforest.arranged b).balance
      · intro x hx
        rw [inorder_rebalanced] at hx
        exact howner x hx
      · intro x hx
        rw [inorder_rebalanced] at hx
        exact hforest.suits b x hx
    · rw [inorder_rebalanced]
    · exact (hagrees.eq_zero_iff hy).mp hzero

/-- `BalancedBTreeRemove` takes an item off its tree. -/
theorem remove (hforest : Forest suits rank h tree) (ha : a ∈ inorder (tree b))
    (hfuel : (tree b).numNodes ≤ fuel) :
    ∃ h' t', balancedBTreeRemove fuel h b (some a) true = some h' ∧ h'.key = h.key ∧
      h'.visited = h.visited ∧ Forest suits rank h' (Function.update tree b t') ∧
      (inorder t').Perm ((inorder (tree b)).erase a) := by
  have hnodup := (hforest.represents b).nodup
  obtain ⟨h', hrun, hrep, hframe⟩ :=
    balancedBTreeRemove_spec (hforest.represents b) ha (hforest.owner b a ha) hfuel true
  have hmem : ∀ x, x ∈ inorder (rebalanced true (SearchTree.remove a (tree b))) ↔
      x ≠ a ∧ x ∈ inorder (tree b) := by
    intro x
    rw [inorder_rebalanced, mem_inorder_remove hnodup]
  refine ⟨h', rebalanced true (SearchTree.remove a (tree b)), hrun, hframe.key, hframe.visited, ?_,
    ?_⟩
  · refine hforest.edit hframe (fun x hx hxb ↦ absurd hx hxb) ?_ hrep ?_ ?_ ?_
    · intro b' hb' hx
      exact hb' (hforest.eq_of_mem hx ha)
    · exact ((hforest.arranged b).remove hnodup a).balance
    · intro x hx
      obtain ⟨hxa, hxb⟩ := (hmem x).mp hx
      rw [Heap.btree_setBtree, if_neg hxa]
      exact hforest.owner b x hxb
    · intro x hx
      exact hforest.suits b x ((hmem x).mp hx).2
  · rw [inorder_rebalanced, inorder_remove hnodup]

end Forest

end HavokMud.BTree
