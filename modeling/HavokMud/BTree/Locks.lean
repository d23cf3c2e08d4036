import HavokMud.BTree.Keys
import HavokMud.BTree.Walks
import HavokMud.Interaction.Traces
import Mathlib.Data.Finset.Lattice.Fold

/-!
# The mutex of a tree

The functions of `balanced_btree.c` take the mutex of the tree if their caller has not.  What they
do between the lock and the unlock are the functions on the node graph; here their exits are
followed with the mutex operations on the way.
-/

namespace HavokMud.BTree.Locks

open BinaryTree SearchTree Interaction Traced

variable {ι κ τ : Type} [DecidableEq ι] [DecidableEq τ]

/-- `if( locked == UNLOCKED ) BalancedBTreeLock( btree )`. -/
def balancedBTreeLock (btree : τ) (locked : Bool) : Traced τ Unit :=
  if locked then pure () else act (.lock btree)

/-- `if( locked == UNLOCKED ) BalancedBTreeUnlock( btree )`. -/
def balancedBTreeUnlock (btree : τ) (locked : Bool) : Traced τ Unit :=
  if locked then pure () else act (.unlock btree)

/-- A callback on the key of an item and a bound.  With a NULL key they all return 0. -/
def compareBound (keyCompare : κ → κ → ℤ) (key : κ) (bound : Option κ) : ℤ :=
  (bound.map (keyCompare key)).getD 0

section Functions

variable (keyCompare keyCompareAlt : κ → κ → ℤ) (fuel : ℕ) (h : Heap ι κ τ) (btree : τ)

/-- `if( rebalance ) BalancedBTreeRebalance( btree, btree->root )`. -/
def rebalanceIf (rebalance : Bool) : Option (Heap ι κ τ) :=
  if rebalance then balancedBTreeRebalance btree fuel h (h.root btree) else some h

/-- `BalancedBTreeAdd`. -/
def balancedBTreeAdd (item : Option ι) (locked rebalance : Bool) : Traced τ (Heap ι κ τ) := do
  balancedBTreeLock btree locked
  match item with
  | none =>
      let h ← compute (rebalanceIf fuel h btree rebalance)
      -- the source locks here
      balancedBTreeLock btree locked
      pure h
  | some item =>
      let h ← compute (BTree.balancedBTreeAdd keyCompare fuel h btree (some item) rebalance)
      balancedBTreeUnlock btree locked
      pure h

/-- `BalancedBTreeRemove`. -/
def balancedBTreeRemove (item : Option ι) (locked rebalance : Bool) :
    Traced τ (Heap ι κ τ) := do
  match item with
  | none =>
      balancedBTreeLock btree locked
      let h ← compute (rebalanceIf fuel h btree rebalance)
      -- the source locks here
      balancedBTreeLock btree locked
      pure h
  | some item =>
      if h.btree item ≠ some btree then
        pure h
      else
        balancedBTreeLock btree locked
        let h ← compute (BTree.balancedBTreeRemove fuel h btree (some item) rebalance)
        balancedBTreeUnlock btree locked
        pure h

/-- `BalancedBTreeFind`. -/
def balancedBTreeFind (key : Option κ) (locked alternate : Bool) : Traced τ (Option ι) := do
  match key with
  | none => pure none
  | some key =>
      balancedBTreeLock btree locked
      let item ← compute (BTree.balancedBTreeFind (if alternate then keyCompareAlt else keyCompare)
        h fuel btree key)
      balancedBTreeUnlock btree locked
      pure item

/-- `BalancedBTreeClearVisited`. -/
def balancedBTreeClearVisited (locked : Bool) : Traced τ (Heap ι κ τ) := do
  balancedBTreeLock btree locked
  let h ← compute (balancedBTreeUnvisit fuel h (h.root btree))
  balancedBTreeUnlock btree locked
  pure h

/-- What `BalancedBTreeFindNextInRange` makes of an item that was not visited. -/
def checkRange (first : κ) (last : Option κ) (item : ι) : Option (Option ι) :=
  if 0 ≤ keyCompare (h.key item) first then
    if compareBound keyCompare (h.key item) last ≤ 0 then some (some item) else some none
  else none

/-- `BalancedBTreeFindNextInRange` between `begin` and `end`. -/
def balancedBTreeFindNextInRange (item : Option ι) (locked : Bool) (first : κ) (last : Option κ) :
    Traced τ (Heap ι κ τ × Option ι) := do
  match item with
  | none => pure (h, none)
  | some item =>
      balancedBTreeLock btree locked
      let r ← compute (findNextLoop fuel (checkRange keyCompare h first last) fuel h item)
      balancedBTreeUnlock btree locked
      pure r

/-- `BalancedBTreeFindNext`. -/
def balancedBTreeFindNext (item : Option ι) (locked : Bool) :
    Traced τ (Heap ι κ τ × Option ι) := do
  match item with
  | none => pure (h, none)
  | some item =>
      balancedBTreeLock btree locked
      let r ← compute (findNextLoop fuel (fun item ↦ some (some item)) fuel h item)
      balancedBTreeUnlock btree locked
      pure r

/-- The check of the item that `BalancedBTreeFindLeastInRange` begins at. -/
def checkFirst (item : ι) (first : κ) (last : Option κ) : Traced τ (Heap ι κ τ × Option ι) :=
  if keyCompare (h.key item) first = 0 then
    pure (h, some item)
  else if 0 < keyCompare (h.key item) first then
    if last.isNone ∨ compareBound keyCompare (h.key item) last ≤ 0 then
      pure (h, some item)
    else
      pure (h, none)
  else
    balancedBTreeFindNextInRange keyCompare fuel h btree (some item) true first last

/-- `BalancedBTreeFindLeastInRange` between `begin` and `end`. -/
def balancedBTreeFindLeastInRange (locked : Bool) (first : κ) (last : Option κ) :
    Traced τ (Heap ι κ τ × Option ι) := do
  balancedBTreeLock btree locked
  let h ← balancedBTreeClearVisited fuel h btree true
  let parent ← compute (balancedBTreeFindParent keyCompare h fuel btree first)
  match parent.or (h.root btree) with
  | none => pure (h, none) -- an empty tree, and the mutex stays as it is
  | some item =>
      let r ← checkFirst keyCompare fuel h btree item first last
      balancedBTreeUnlock btree locked
      pure r

end Functions

/-- The calls, with the arguments other than the tree and `locked`. -/
inductive Call (ι κ : Type) where
  | add (item : Option ι) (rebalance : Bool)
  | remove (item : Option ι) (rebalance : Bool)
  | find (key : Option κ) (alternate : Bool)
  | clearVisited
  | findLeastInRange (first : κ) (last : Option κ)
  | findNextInRange (item : Option ι) (first : κ) (last : Option κ)
  | findNext (item : Option ι)

/-- A call, where the heap that it leaves and what it returns do not matter. -/
def Call.run (keyCompare keyCompareAlt : κ → κ → ℤ) (fuel : ℕ) (h : Heap ι κ τ) (btree : τ)
    (locked : Bool) : Call ι κ → Traced τ Unit
  | .add item rebalance => do
      let _ ← balancedBTreeAdd keyCompare fuel h btree item locked rebalance
  | .remove item rebalance => do
      let _ ← balancedBTreeRemove fuel h btree item locked rebalance
  | .find key alternate => do
      let _ ← balancedBTreeFind keyCompare keyCompareAlt fuel h btree key locked alternate
  | .clearVisited => do
      let _ ← balancedBTreeClearVisited fuel h btree locked
  | .findLeastInRange first last => do
      let _ ← balancedBTreeFindLeastInRange keyCompare fuel h btree locked first last
  | .findNextInRange item first last => do
      let _ ← balancedBTreeFindNextInRange keyCompare fuel h btree item locked first last
  | .findNext item => do
      let _ ← balancedBTreeFindNext fuel h btree item locked

/-- An item is on a tree. -/
def OnTree (h : Heap ι κ τ) (item : ι) : Prop :=
  ∃ btree t, Represents h btree t ∧ item ∈ inorder t

/-- An item names a parent that does not name it, as `BalancedBTreeAdd` leaves one whose key is
taken. -/
structure Rejected (h : Heap ι κ τ) (t : BinaryTree ι) (item : ι) : Prop where
  notMem : item ∉ inorder t
  left : h.left item = none
  right : h.right item = none
  parent : ∃ q ∈ inorder t, h.parent item = some q

/-- The items that a call may be given: none, one that is not on the tree to be added to it, and
one that is on a tree, or was rejected by one, to be removed or to go on from.  An item of another
tree than the one it is to be removed from may be anything. -/
def Call.Fits (h : Heap ι κ τ) (btree : τ) (t : BinaryTree ι) : Call ι κ → Prop
  | .add (some item) _ => item ∉ inorder t
  | .remove (some item) _ => h.btree item = some btree → item ∈ inorder t ∨ Rejected h t item
  | .findNextInRange (some item) _ _ => OnTree h item ∨ Rejected h t item
  | .findNext (some item) => OnTree h item ∨ Rejected h t item
  | _ => True

/-- The calls that leave the mutex as they should not: they add or remove no item, or they look
for the least item of an empty tree. -/
def Call.Slips (t : BinaryTree ι) : Call ι κ → Prop
  | .add none _ => True
  | .remove none _ => True
  | .findLeastInRange _ _ => t = .nil
  | _ => False

/-! ## Exits -/

open LockBalanced

section Exits

variable {α β : Type}

omit [DecidableEq ι] [DecidableEq τ] in
theorem guarded_eq (btree : τ) (locked : Bool) (a : α) (f : α → β) :
    (do balancedBTreeLock btree locked
        let x ← compute (some a)
        balancedBTreeUnlock btree locked
        pure (f x)) = guarded btree locked (f a) := by
  cases locked <;> rfl

omit [DecidableEq τ] in
theorem guarded_discard (btree : τ) (locked : Bool) (a : α) :
    (do let _ ← guarded btree locked a) = guarded btree locked () := by
  cases locked <;> rfl

end Exits

section Returns

variable {keyCompare keyCompareAlt : κ → κ → ℤ} {h : Heap ι κ τ} {btree : τ} {t : BinaryTree ι}
  {fuel : ℕ} {item : ι}

theorem exists_rebalanceIf (hrep : Represents h btree t) (hfuel : t.numNodes ≤ fuel)
    (rebalance : Bool) : ∃ h', rebalanceIf fuel h btree rebalance = some h' := by
  obtain ⟨h', hrun, -⟩ := rebalance_if_asked hrep hfuel rebalance
  exact ⟨h', hrun⟩

/-- Removing an item that was rejected cuts off what its parent has on the right. -/
theorem exists_remove_of_rejected (hrep : Represents h btree t) (hitem : Rejected h t item)
    (howner : h.btree item = some btree) (hfuel : t.numNodes ≤ fuel) (rebalance : Bool) :
    ∃ h', BTree.balancedBTreeRemove fuel h btree (some item) rebalance = some h' := by
  obtain ⟨q, hq, hparent⟩ := hitem.parent
  obtain ⟨t', hrep', hsize, hmem⟩ := hrep.cutRight hq
  have hleft : h.left q ≠ some item := by
    intro hlink
    exact hitem.notMem (hrep.links.child_link hq (.inl hlink)).1
  have hne : ∀ b ∈ inorder t', b ≠ item := by
    rintro b hb rfl
    exact hitem.notMem (hmem b hb)
  have hcut : Represents (((((h.setRight q none).setLeft item none).setRight item none).setParent
      item none).setBtree item none) btree t' := by
    refine ⟨hrep'.links.congr ?_ ?_ ?_, hrep'.nodup⟩
    · intro b hb
      simp [hne b hb]
    · intro b hb
      simp [hne b hb]
    · intro b hb
      simp [hne b hb]
  obtain ⟨h', hrun⟩ := exists_rebalanceIf hcut (hsize.trans hfuel) rebalance
  refine ⟨h', ?_⟩
  have hweight : balancedBTreeWeight h fuel none = some 0 := by
    cases fuel <;> rfl
  have hleast : balancedBTreeFindLeast h fuel none = some none := by
    cases fuel <;> rfl
  have hreplace : balancedBTreeReplace h btree item none =
      some ((((h.setRight q none).setLeft item none).setRight item none).setParent item none) := by
    simp [balancedBTreeReplace, hparent, Heap.relink, hleft]
  rw [← hrun]
  simp [BTree.balancedBTreeRemove, howner, hitem.left, hitem.right, hweight, hleast, hreplace,
    rebalanceIf]

/-- Removing an item that is on the tree, or was rejected by it. -/
theorem exists_remove (hrep : Represents h btree t) (howner : h.btree item = some btree)
    (hitem : item ∈ inorder t ∨ Rejected h t item) (hfuel : t.numNodes ≤ fuel)
    (rebalance : Bool) :
    ∃ h', BTree.balancedBTreeRemove fuel h btree (some item) rebalance = some h' := by
  rcases hitem with hitem | hitem
  · obtain ⟨h', hrun, -⟩ := balancedBTreeRemove_spec hrep hitem howner hfuel rebalance
    exact ⟨h', hrun⟩
  · exact exists_remove_of_rejected hrep hitem howner hfuel rebalance

omit [DecidableEq τ] in
/-- The walk from an item ends. -/
theorem exists_findNextLoop (hrep : Represents h btree t)
    (hitem : OnTree h item ∨ Rejected h t item) (check : ι → Option (Option ι)) :
    ∃ n, ∀ fuel, n ≤ fuel → ∃ r, findNextLoop fuel check fuel h item = some r := by
  have hends : ∃ size, Ends size check (h.visit h.visited) item := by
    rcases hitem with ⟨other, t', hrep', hmem⟩ | hitem
    · exact ⟨t'.numNodes, ends_of_mem hrep' le_rfl hmem _⟩
    · obtain ⟨q, hq, hparent⟩ := hitem.parent
      refine ⟨t.numNodes, ends_of_alone hrep le_rfl hitem.right ?_ _⟩
      intro q' hq'
      obtain rfl : q = q' := by simpa [hparent] using hq'
      exact hq
  obtain ⟨size, n, hn⟩ := hends
  exact ⟨max size n, fun fuel hfuel ↦ hn fuel fuel (by omega) (by omega)⟩

omit [DecidableEq ι] [DecidableEq τ] in
/-- The item that `BalancedBTreeFindLeastInRange` begins at. -/
theorem exists_findParent (keyCompare : κ → κ → ℤ) (hrep : Represents h btree t)
    (hfuel : t.numNodes ≤ fuel) (key : κ) :
    ∃ parent, balancedBTreeFindParent keyCompare h fuel btree key = some parent ∧
      ((parent.or (h.root btree) = none ∧ t = .nil) ∨
        ∃ q ∈ inorder t, parent.or (h.root btree) = some q) := by
  have htop : Context h btree .top none (h.root btree) := ⟨rfl, rfl⟩
  obtain ⟨c, parent, hfind, hctx, -, hplug, -⟩ :=
    findParentLoop_eq htop hrep.links (trivial : HoleSide (probe keyCompare h key) .top) hfuel
  refine ⟨parent, hfind, ?_⟩
  have hlinks := hrep.links
  cases parent with
  | none =>
      rw [Option.none_or]
      cases hroot : h.root btree with
      | none =>
          rw [hroot] at hlinks
          cases t with
          | nil => exact .inl ⟨rfl, rfl⟩
          | node => simp [subtree_node] at hlinks
      | some q =>
          rw [hroot] at hlinks
          exact .inr ⟨q, hlinks.root_mem, rfl⟩
  | some q =>
      refine .inr ⟨q, ?_, rfl⟩
      rw [Spine.plug] at hplug
      rw [← hplug, Spine.mem_plug]
      exact .inr hctx.parent_mem

omit [DecidableEq τ] in
theorem exists_checkFirst (btree : τ) {first : κ} {last : Option κ} {r : Heap ι κ τ × Option ι}
    (hwalk : findNextLoop fuel (checkRange keyCompare h first last) fuel h item = some r) :
    ∃ r', checkFirst keyCompare fuel h btree item first last = compute (some r') := by
  unfold checkFirst
  split_ifs
  · exact ⟨_, rfl⟩
  · exact ⟨_, rfl⟩
  · exact ⟨_, rfl⟩
  · refine ⟨r, ?_⟩
    simp only [balancedBTreeFindNextInRange, hwalk]
    rfl

omit [DecidableEq τ] in
/-- The least item in a range is found under the mutex; if the tree is empty, the mutex is not
released. -/
theorem findLeastInRange_eq (keyCompare : κ → κ → ℤ) (hrep : Represents h btree t)
    (locked : Bool) (first : κ) (last : Option κ) :
    ∃ n, ∀ fuel, n ≤ fuel → ∃ r,
      t = .nil ∧ balancedBTreeFindLeastInRange keyCompare fuel h btree locked first last =
          (balancedBTreeLock btree locked >>= fun _ ↦ pure r) ∨
        t ≠ .nil ∧ balancedBTreeFindLeastInRange keyCompare fuel h btree locked first last =
          guarded btree locked r := by
  let v := cleared h.visited t
  have hwalks : ∀ item ∈ inorder t, ∃ n, ∀ fuel, n ≤ fuel → ∃ r, findNextLoop fuel
      (checkRange keyCompare (h.visit v) first last) fuel (h.visit v) item = some r := by
    intro item hitem
    have hrep' := hrep.visit v
    exact exists_findNextLoop hrep' (.inl ⟨btree, t, hrep', hitem⟩) _
  choose! n hn using hwalks
  refine ⟨max t.numNodes ((inorder t).toFinset.sup n), ?_⟩
  intro fuel hfuel
  have hclear : balancedBTreeClearVisited fuel h btree true = compute (some (h.visit v)) := by
    have hunvisit : balancedBTreeUnvisit fuel h (h.root btree) = some (h.visit v) :=
      balancedBTreeUnvisit_eq hrep.links h.visited (by omega)
    simp only [balancedBTreeClearVisited, hunvisit]
    rfl
  obtain ⟨parent, hfind, hbegin⟩ :=
    exists_findParent keyCompare (hrep.visit v) (by omega : t.numNodes ≤ fuel) first
  unfold balancedBTreeFindLeastInRange
  rw [hclear]
  simp only [compute_bind, hfind]
  rcases hbegin with ⟨hnone, rfl⟩ | ⟨q, hq, hsome⟩
  · refine ⟨(h.visit v, none), .inl ⟨rfl, ?_⟩⟩
    rw [hnone]
  · have hle : n q ≤ (inorder t).toFinset.sup n := Finset.le_sup (List.mem_toFinset.mpr hq)
    obtain ⟨r, hr⟩ := hn q hq fuel (by omega)
    obtain ⟨r', hr'⟩ := exists_checkFirst btree hr
    refine ⟨r', .inr ⟨?_, ?_⟩⟩
    · rintro rfl
      cases hq
    · rw [hsome]
      simp only [hr']
      exact guarded_eq btree locked r' id

end Returns

/-! ## The calls -/

section Calls

variable {α : Type} {h : Heap ι κ τ} {btree : τ} {t : BinaryTree ι}

/-- The exits that unlock. -/
theorem lockBalanced_discard {call : Traced τ α} {locked : Bool} {a : α}
    (hcall : call = guarded btree locked a) : LockBalanced btree locked (do let _ ← call) := by
  rw [hcall, guarded_discard]
  exact of_guarded btree locked ()

omit [DecidableEq ι] in
/-- The exits that lock twice. -/
theorem lockBalanced_twice_iff {locked : Bool} (r : Option (Heap ι κ τ)) (hr : r.isSome) :
    LockBalanced btree locked (do
        let _ ← (do
          balancedBTreeLock btree locked
          let h ← compute r
          balancedBTreeLock btree locked
          pure h)) ↔ ¬ locked = false := by
  obtain ⟨h, rfl⟩ := Option.isSome_iff_exists.mp hr
  cases locked with
  | true => exact iff_of_true (of_compute btree true ()) (by simp)
  | false => exact iff_of_false (not_lock_lock _ _) (by simp)

/-- The exit that does not unlock. -/
theorem lockBalanced_once_iff {locked : Bool} (a : α) :
    LockBalanced btree locked (do
        let _ ← (do
          balancedBTreeLock btree locked
          pure a)) ↔ ¬ locked = false := by
  cases locked with
  | true => exact iff_of_true (of_compute btree true ()) (by simp)
  | false => exact iff_of_false (not_lock _) (by simp)

/-- A call returns from its tree with the mutex as it should be, unless it takes the mutex itself
and then adds or removes no item, or looks for the least item of an empty tree. -/
theorem call_lockBalanced_iff (keyCompare keyCompareAlt : κ → κ → ℤ) (hrep : Represents h btree t)
    (locked : Bool) (call : Call ι κ) (hfits : call.Fits h btree t) :
    ∃ n, ∀ fuel, n ≤ fuel →
      (LockBalanced btree locked (call.run keyCompare keyCompareAlt fuel h btree locked) ↔
        ¬ (locked = false ∧ call.Slips t)) := by
  cases call with
  | add item rebalance =>
      cases item with
      | none =>
          refine ⟨t.numNodes, ?_⟩
          intro fuel hfuel
          obtain ⟨h', hrun⟩ := exists_rebalanceIf hrep hfuel rebalance
          simp only [Call.Slips, and_true]
          exact lockBalanced_twice_iff _ (by simp [hrun])
      | some item =>
          refine ⟨t.numNodes + 1, ?_⟩
          intro fuel hfuel
          obtain ⟨h', hrun, -⟩ := balancedBTreeAdd_cases keyCompare hrep hfits hfuel rebalance
          simp only [Call.Slips, and_false, not_false_iff, iff_true]
          refine lockBalanced_discard (a := h') ?_
          simp only [balancedBTreeAdd, hrun]
          exact guarded_eq btree locked h' id
  | remove item rebalance =>
      cases item with
      | none =>
          refine ⟨t.numNodes, ?_⟩
          intro fuel hfuel
          obtain ⟨h', hrun⟩ := exists_rebalanceIf hrep hfuel rebalance
          simp only [Call.Slips, and_true]
          exact lockBalanced_twice_iff _ (by simp [hrun])
      | some item =>
          refine ⟨t.numNodes, ?_⟩
          intro fuel hfuel
          simp only [Call.Slips, and_false, not_false_iff, iff_true]
          by_cases howner : h.btree item = some btree
          · obtain ⟨h', hrun⟩ := exists_remove hrep howner (hfits howner) hfuel rebalance
            refine lockBalanced_discard (a := h') ?_
            simp only [balancedBTreeRemove, howner, ne_eq, not_true, if_false, hrun]
            exact guarded_eq btree locked h' id
          · simp only [Call.run, balancedBTreeRemove, ne_eq, howner, not_false_iff, if_true]
            exact of_compute btree locked ()
  | find key alternate =>
      refine ⟨t.numNodes, ?_⟩
      intro fuel hfuel
      simp only [Call.Slips, and_false, not_false_iff, iff_true]
      cases key with
      | none => exact of_compute btree locked ()
      | some key =>
          let compare := if alternate then keyCompareAlt else keyCompare
          refine lockBalanced_discard (a := SearchTree.find (probe compare h key) t) ?_
          simp only [balancedBTreeFind, balancedBTreeFind_eq hrep hfuel]
          exact guarded_eq btree locked _ id
  | clearVisited =>
      refine ⟨t.numNodes, ?_⟩
      intro fuel hfuel
      have hunvisit : balancedBTreeUnvisit fuel h (h.root btree) =
          some (h.visit (cleared h.visited t)) :=
        balancedBTreeUnvisit_eq hrep.links h.visited hfuel
      simp only [Call.Slips, and_false, not_false_iff, iff_true]
      refine lockBalanced_discard (a := h.visit (cleared h.visited t)) ?_
      simp only [balancedBTreeClearVisited, hunvisit]
      exact guarded_eq btree locked _ id
  | findLeastInRange first last =>
      obtain ⟨n, hn⟩ := findLeastInRange_eq keyCompare hrep locked first last
      refine ⟨n, ?_⟩
      intro fuel hfuel
      obtain ⟨r, ⟨rfl, hrun⟩ | ⟨hne, hrun⟩⟩ := hn fuel hfuel
      · simp only [Call.Slips, and_true, Call.run, hrun]
        exact lockBalanced_once_iff r
      · simp only [Call.Slips, hne, and_false, not_false_iff, iff_true]
        exact lockBalanced_discard hrun
  | findNextInRange item first last =>
      simp only [Call.Slips, and_false, not_false_iff, iff_true]
      cases item with
      | none => exact ⟨0, fun _ _ ↦ of_compute btree locked ()⟩
      | some item =>
          obtain ⟨n, hn⟩ := exists_findNextLoop hrep hfits (checkRange keyCompare h first last)
          refine ⟨n, ?_⟩
          intro fuel hfuel
          obtain ⟨r, hr⟩ := hn fuel hfuel
          refine lockBalanced_discard (a := r) ?_
          simp only [balancedBTreeFindNextInRange, hr]
          exact guarded_eq btree locked r id
  | findNext item =>
      simp only [Call.Slips, and_false, not_false_iff, iff_true]
      cases item with
      | none => exact ⟨0, fun _ _ ↦ of_compute btree locked ()⟩
      | some item =>
          obtain ⟨n, hn⟩ := exists_findNextLoop hrep hfits fun item ↦ some (some item)
          refine ⟨n, ?_⟩
          intro fuel hfuel
          obtain ⟨r, hr⟩ := hn fuel hfuel
          refine lockBalanced_discard (a := r) ?_
          simp only [balancedBTreeFindNext, hr]
          exact guarded_eq btree locked r id

end Calls

/-- The tree of the given item alone, or the empty tree. -/
def lonely (root : Option ℕ) : Heap ℕ ℤ Unit where
  left _ := none
  right _ := none
  parent _ := none
  key item := item
  btree item := if root = some item then some () else none
  visited _ := 0
  root _ := root

theorem call_lockBalanced_iff_add :
    ∃ n, ∀ fuel, n ≤ fuel →
      (LockBalanced () false ((Call.add (some 1) true).run keyCompareInt keyCompareInt fuel
          (lonely (some 0)) () false) ↔
        ¬ (false = false ∧
          (Call.add (some 1) true : Call ℕ ℤ).Slips (.node 0 .nil .nil : BinaryTree ℕ))) := by
  have hrep : Represents (lonely (some 0)) () (.node 0 .nil .nil) :=
    ⟨⟨rfl, rfl, rfl, rfl⟩, by simp⟩
  exact call_lockBalanced_iff keyCompareInt keyCompareInt hrep false (.add (some 1) true)
    (by simp [Call.Fits])

/-- On the empty tree, to add no item locks the mutex twice, and to look for the least item leaves
it locked. -/
theorem empty_tree_not_lockBalanced :
    Represents (lonely none) () .nil ∧
      (∀ fuel, ¬ LockBalanced () false ((Call.add none true).run keyCompareInt keyCompareInt fuel
        (lonely none) () false)) ∧
      ∀ fuel, ¬ LockBalanced () false ((Call.findLeastInRange 5 none).run keyCompareInt
        keyCompareInt fuel (lonely none) () false) := by
  refine ⟨⟨rfl, by simp⟩, ?_, ?_⟩
  · intro fuel
    cases fuel <;> exact not_lock_lock _ _
  · intro fuel
    cases fuel <;> exact not_lock _

end HavokMud.BTree.Locks
