import HavokMud.BTree.InOrder
import HavokMud.BTree.Locks
import HavokMud.BTree.Runs

/-!
# Iteration with removal

A caller goes through a tree with `BalancedBTreeClearVisited`, `BalancedBTreeFindLeast` and
`BalancedBTreeFindNext`, and once it has the next item it may take the present one off the tree.
The counts of the items and what is still to come do not depend on the shape of the tree, so that
no rotation disturbs the walk.
-/

namespace HavokMud.BTree

open BinaryTree SearchTree Interaction Traced

theorem Holds.visit {ι κ τ : Type} {keyCompare : κ → κ → ℤ} {h : Heap ι κ τ} {btree : τ}
    {items : List ι} {t : BinaryTree ι} (hinv : Holds keyCompare h btree items t) (v : ι → ℕ) :
    Holds keyCompare (h.visit v) btree items t :=
  ⟨hinv.represents.visit v, hinv.perm, hinv.sorted, hinv.owner⟩

namespace Locks

variable {ι κ τ : Type} [DecidableEq ι] [DecidableEq τ]

section Functions

variable (fuel : ℕ) (h : Heap ι κ τ) (btree : τ) (locked : Bool)

/-- What the caller does with an item: nothing, or `BalancedBTreeRemove` with or without
rebalancing. -/
def removeIf (item : ι) : Option Bool → Traced τ (Heap ι κ τ)
  | none => pure h
  | some rebalance => balancedBTreeRemove fuel h btree (some item) locked rebalance

/-- `for( ; item; item = item2 ) { item2 = BalancedBTreeFindNext( btree, item, locked ); .. }`, with
the removals turn by turn.  The result holds the items that the turns began with. -/
def iterateFrom : ℕ → (ℕ → Option Bool) → Heap ι κ τ → Option ι → Traced τ (Heap ι κ τ × List ι)
  | _, _, h, none => pure (h, [])
  | 0, _, _, some _ => compute none
  | turns + 1, removal, h, some item => do
      let (h, item2) ← balancedBTreeFindNext fuel h btree (some item) locked
      let h ← removeIf fuel h btree locked item (removal 0)
      let (h, items) ← iterateFrom turns (fun n ↦ removal (n + 1)) h item2
      pure (h, item :: items)

/-- The whole iteration. -/
def iterate (removal : ℕ → Option Bool) : Traced τ (Heap ι κ τ × List ι) := do
  let h ← balancedBTreeClearVisited fuel h btree locked
  let least ← compute (balancedBTreeFindLeast h fuel (h.root btree))
  iterateFrom fuel btree locked fuel removal h least

end Functions

/-- The items that are not removed. -/
def kept : (ℕ → Option Bool) → List ι → List ι
  | _, [] => []
  | removal, a :: items =>
      ([a].filter fun _ ↦ (removal 0).isNone) ++ kept (fun n ↦ removal (n + 1)) items

section Results

variable {h : Heap ι κ τ} {btree : τ} {fuel : ℕ}

omit [DecidableEq τ] in
@[simp]
theorem result_balancedBTreeLock (btree : τ) (locked : Bool) :
    (balancedBTreeLock btree locked).result = some () := by
  cases locked <;> rfl

omit [DecidableEq τ] in
@[simp]
theorem result_balancedBTreeUnlock (btree : τ) (locked : Bool) :
    (balancedBTreeUnlock btree locked).result = some () := by
  cases locked <;> rfl

omit [DecidableEq τ] in
@[simp]
theorem result_balancedBTreeClearVisited (locked : Bool) :
    (balancedBTreeClearVisited fuel h btree locked).result =
      balancedBTreeUnvisit fuel h (h.root btree) := by
  simp [balancedBTreeClearVisited, result_bind]

omit [DecidableEq τ] in
@[simp]
theorem result_balancedBTreeFindNext (item : ι) (locked : Bool) :
    (balancedBTreeFindNext fuel h btree (some item) locked).result =
      findNextLoop fuel (fun item ↦ some (some item)) fuel h item := by
  simp [balancedBTreeFindNext, result_bind]

/-- An item that is on no tree or another one is left alone with or without the mutex. -/
@[simp]
theorem result_balancedBTreeRemove (item : ι) (locked rebalance : Bool) :
    (balancedBTreeRemove fuel h btree (some item) locked rebalance).result =
      BTree.balancedBTreeRemove fuel h btree (some item) rebalance := by
  by_cases howner : h.btree item = some btree
  · simp [balancedBTreeRemove, result_bind, howner]
  · simp [balancedBTreeRemove, BTree.balancedBTreeRemove, howner]

end Results

section Iteration

variable {keyCompare : κ → κ → ℤ} {h : Heap ι κ τ} {btree : τ} {items before after : List ι}
  {t : BinaryTree ι} {a : ι} {fuel : ℕ}

/-- The walk through a tree has come to an item. -/
structure Walking (keyCompare : κ → κ → ℤ) (h : Heap ι κ τ) (btree : τ) (before : List ι) (a : ι)
    (after : List ι) (t : BinaryTree ι) : Prop where
  holds : Holds keyCompare h btree (before ++ a :: after) t
  split : inorder t = before ++ a :: after
  upto : Upto h.visited before a after

/-- Whether the item is removed or not, the other items and all counts stay. -/
theorem removeIf_spec (hinv : Holds keyCompare h btree (before ++ a :: after) t)
    (hsplit : inorder t = before ++ a :: after)
    (hfuel : (before ++ a :: after).length ≤ fuel) (locked : Bool) (removal : Option Bool) :
    ∃ h' t', (removeIf fuel h btree locked a removal).result = some h' ∧ h'.key = h.key ∧
      h'.visited = h.visited ∧
      Holds keyCompare h' btree (before ++ ([a].filter fun _ ↦ removal.isNone) ++ after) t' ∧
      inorder t' = before ++ ([a].filter fun _ ↦ removal.isNone) ++ after := by
  cases removal with
  | none => exact ⟨h, t, rfl, rfl, rfl, by simpa using hinv, by simpa using hsplit⟩
  | some rebalance =>
      have hnodup := hinv.represents.nodup
      have ha : a ∈ inorder t := by simp [hsplit]
      have hsize : t.numNodes ≤ fuel := by rw [hinv.numNodes_eq]; exact hfuel
      obtain ⟨h', hrun, hkey, hinv'⟩ := hinv.remove (a := a) (by simp) hfuel rebalance
      obtain ⟨h'', hrun', -, hframe⟩ :=
        balancedBTreeRemove_spec hinv.represents ha (hinv.owner a ha) hsize rebalance
      obtain rfl : h' = h'' := Option.some.inj (hrun.symm.trans hrun')
      have herase : (before ++ a :: after).erase a = before ++ after := by
        have hbefore : a ∉ before := by
          rw [hsplit] at hnodup
          intro hmem
          exact (List.nodup_append.mp hnodup).2.2 a hmem a (by simp) rfl
        rw [List.erase_append_right _ hbefore, List.erase_cons_head]
      rw [herase] at hinv'
      refine ⟨h', rebalanced rebalance (remove a t), by simpa [removeIf] using hrun, hkey,
        hframe.visited, ?_, ?_⟩
      · simpa using hinv'
      · rw [inorder_rebalanced, inorder_remove hnodup, hsplit, herase]
        simp

/-- One turn: the item after this one is next. -/
theorem Walking.step (hwalk : Walking keyCompare h btree before a after t) (locked : Bool)
    (removal : Option Bool) (hfuel : (before ++ a :: after).length ≤ fuel) :
    ∃ v h' t', findNextLoop fuel (fun item ↦ some (some item)) fuel h a =
        some (h.visit v, after.head?) ∧
      (removeIf fuel (h.visit v) btree locked a removal).result = some h' ∧ h'.key = h.key ∧
      Holds keyCompare h' btree (before ++ ([a].filter fun _ ↦ removal.isNone) ++ after) t' ∧
      ∀ b after', after = b :: after' → Walking keyCompare h' btree
        (before ++ [a].filter fun _ ↦ removal.isNone) b after' t' := by
  have hsize : t.numNodes ≤ fuel := by rw [hwalk.holds.numNodes_eq]; exact hfuel
  obtain ⟨v, hrun, hupto⟩ := findNextLoop_eq hwalk.holds.represents hwalk.split hwalk.upto hsize
  obtain ⟨h', t', hremove, hkey, hvisited, hinv, hsplit⟩ :=
    removeIf_spec (hwalk.holds.visit v) hwalk.split hfuel locked removal
  refine ⟨v, h', t', hrun, hremove, hkey, hinv, ?_⟩
  rintro b after' rfl
  have hupto := hupto b after' rfl
  refine ⟨hinv, hsplit, ?_, ?_, ?_⟩
  · intro x hx
    rw [hvisited]
    refine hupto.before x ?_
    rcases List.mem_append.mp hx with hx | hx
    · exact List.mem_append_left _ hx
    · exact List.mem_append_right _ (List.mem_of_mem_filter hx)
  · rw [hvisited]
    exact hupto.here
  · rw [hvisited]
    exact hupto.after

/-- From an item the iteration returns that one and those after it, in whatever way the tree is
relinked on the way. -/
theorem iterateFrom_eq (hwalk : Walking keyCompare h btree before a after t) (locked : Bool)
    (removal : ℕ → Option Bool) (hfuel : (before ++ a :: after).length ≤ fuel) {turns : ℕ}
    (hturns : after.length < turns) :
    ∃ h' t', (iterateFrom fuel btree locked turns removal h (some a)).result =
        some (h', a :: after) ∧ h'.key = h.key ∧
      Holds keyCompare h' btree (before ++ kept removal (a :: after)) t' := by
  obtain ⟨turns, rfl⟩ : ∃ less, turns = less + 1 := ⟨turns - 1, by omega⟩
  induction after generalizing h before a t removal turns with
  | nil =>
      obtain ⟨v, h', t', hnext, hremove, hkey, hinv, -⟩ := hwalk.step locked (removal 0) hfuel
      refine ⟨h', t', ?_, hkey, ?_⟩
      · cases turns <;> simp [iterateFrom, result_bind, hnext, hremove]
      · simpa [kept] using hinv
  | cons b after ih =>
      obtain ⟨v, h', t', hnext, hremove, hkey, -, hwalk'⟩ := hwalk.step locked (removal 0) hfuel
      have hlength : (before ++ [a].filter fun _ ↦ (removal 0).isNone).length ≤
          before.length + 1 := by
        rw [List.length_append]
        exact Nat.add_le_add_left (List.length_filter_le _ _) _
      simp only [List.length_append, List.length_cons] at hfuel hlength hturns
      obtain ⟨turns, rfl⟩ : ∃ less, turns = less + 1 := ⟨turns - 1, by omega⟩
      obtain ⟨h'', t'', hrest, hkey', hinv'⟩ := ih (hwalk' b after rfl)
        (fun n ↦ removal (n + 1)) (by simp only [List.length_append, List.length_cons]; omega)
        turns (by omega)
      refine ⟨h'', t'', ?_, hkey'.trans hkey, ?_⟩
      · rw [iterateFrom]
        simp [result_bind, hnext, hremove, hrest]
      · rw [kept, ← List.append_assoc]
        exact hinv'

/-- `BalancedBTreeClearVisited`, `BalancedBTreeFindLeast` and `BalancedBTreeFindNext` until that
finds nothing return every item of the tree once, by ascending keys, whichever of them are removed
on the way, and the others are left. -/
theorem iterate_ascending (hinv : Holds keyCompare h btree items t) (locked : Bool)
    (removal : ℕ → Option Bool) (hfuel : items.length ≤ fuel) :
    ∃ h' returned t', (iterate fuel h btree locked removal).result = some (h', returned) ∧
      returned.Perm items ∧ returned.Nodup ∧
      returned.Pairwise (fun a b ↦ keyCompare (h.key a) (h.key b) < 0) ∧
      h'.key = h.key ∧ Holds keyCompare h' btree (kept removal returned) t' := by
  have hsize : t.numNodes ≤ fuel := by rw [hinv.numNodes_eq]; exact hfuel
  have hclear : balancedBTreeUnvisit fuel h (h.root btree) =
      some (h.visit (cleared h.visited t)) :=
    balancedBTreeUnvisit_eq hinv.represents.links h.visited hsize
  have hleast : balancedBTreeFindLeast (h.visit (cleared h.visited t)) fuel (h.root btree) =
      some (inorder t).head? := by
    rw [← least_eq_head?]
    exact balancedBTreeFindLeast_eq (hinv.represents.links.visit _) hsize
  have hroot : (h.visit (cleared h.visited t)).root btree = h.root btree := rfl
  have hinv' : Holds keyCompare (h.visit (cleared h.visited t)) btree (inorder t) t :=
    ⟨hinv.represents.visit _, List.Perm.refl _, hinv.sorted, hinv.owner⟩
  cases hsplit : inorder t with
  | nil =>
      refine ⟨h.visit (cleared h.visited t), [], t, ?_, ?_, by simp, by simp, rfl, ?_⟩
      · cases fuel <;> simp [iterate, iterateFrom, result_bind, hclear, hroot, hleast, hsplit]
      · rw [← hsplit]
        exact hinv.perm
      · rw [hsplit] at hinv'
        exact hinv'
  | cons a after =>
      have hwalk : Walking keyCompare (h.visit (cleared h.visited t)) btree [] a after t :=
        ⟨by rw [hsplit] at hinv'; exact hinv', hsplit, upto_cleared hsplit⟩
      have hlength : (a :: after).length ≤ fuel := by
        rw [← hsplit, hinv.perm.length_eq]
        exact hfuel
      obtain ⟨h', t', hrun, hkey, hkept⟩ :=
        iterateFrom_eq hwalk locked removal (by simpa using hlength) (Nat.lt_of_succ_le hlength)
      refine ⟨h', a :: after, t', ?_, ?_, ?_, ?_, hkey, by simpa using hkept⟩
      · simp [iterate, result_bind, hclear, hroot, hleast, hsplit, hrun]
      · rw [← hsplit]
        exact hinv.perm
      · rw [← hsplit]
        exact hinv.represents.nodup
      · rw [← hsplit]
        exact hinv.sorted

end Iteration

/-- The tree of two items, the greater of them on the right. -/
def twoItems : Heap ℕ ℤ Unit where
  left _ := none
  right item := if item = 5 then some 7 else none
  parent item := if item = 7 then some 5 else none
  key item := item
  btree _ := some ()
  visited _ := 0
  root _ := some 5

theorem holds_twoItems :
    Holds keyCompareInt twoItems () [5, 7] (.node 5 .nil (.node 7 .nil .nil)) where
  represents := ⟨⟨rfl, rfl, rfl, rfl, rfl, rfl, rfl⟩, by simp⟩
  perm := List.Perm.refl _
  sorted := by decide
  owner _ _ := rfl

theorem iterate_ascending_twoItems :
    ∃ h' returned t', (iterate 2 twoItems () false fun _ ↦ some true).result =
        some (h', returned) ∧ returned.Perm [5, 7] ∧ returned.Nodup ∧
      returned.Pairwise (fun a b ↦ keyCompareInt (twoItems.key a) (twoItems.key b) < 0) ∧
      h'.key = twoItems.key ∧
      Holds keyCompareInt h' () (kept (fun _ ↦ some true) returned) t' :=
  iterate_ascending holds_twoItems false (fun _ ↦ some true) (by simp)

end Locks

end HavokMud.BTree
