import HavokMud.BTree.Keys
import HavokMud.BTree.Operations
import HavokMud.SearchTree.Arranged
import Mathlib.Data.List.Nodup

/-!
# Filling a tree

Tables of the program are put on a tree one item after another.  An item whose key is on the tree
already may be rejected, or hung below the other one, so that the keys never decrease from left to
right and every key offered is on the tree.
-/

namespace HavokMud.BTree

open BinaryTree SearchTree

variable {ι κ τ ω : Type} [LinearOrder ω]

/-- The comparison of keys is that of ranks. -/
structure Follows (keyCompare : κ → κ → ℤ) (key : ι → κ) (rank : ι → ω) : Prop where
  neg_iff : ∀ a b, keyCompare (key a) (key b) < 0 ↔ rank a < rank b
  pos_iff : ∀ a b, 0 < keyCompare (key a) (key b) ↔ rank b < rank a

theorem follows_keyCompareString {key : ι → List UInt8} (hkey : ∀ a, 0 ∉ key a) :
    Follows keyCompareString key fun a ↦ fold (key a) :=
  ⟨fun a b ↦ keyCompareString_neg_iff (hkey a) (hkey b),
    fun a b ↦ keyCompareString_pos_iff (hkey a) (hkey b)⟩

/-- The tree holds items that were offered, arranged by their ranks, and every rank offered. -/
structure Filled (h : Heap ι κ τ) (btree : τ) (rank : ι → ω) (items : List ι) (t : BinaryTree ι) :
    Prop where
  represents : Represents h btree t
  arranged : Arranged rank t
  mem : ∀ a ∈ inorder t, a ∈ items
  covers : ∀ a ∈ items, ∃ b ∈ inorder t, rank b = rank a

variable {keyCompare : κ → κ → ℤ} {h : Heap ι κ τ} {btree : τ} {rank : ι → ω} {items : List ι}
  {t : BinaryTree ι} {fuel : ℕ}

theorem Follows.agrees (hfollows : Follows keyCompare h.key rank) (a : ι) (t : BinaryTree ι) :
    Agrees (probe keyCompare h (h.key a)) rank (rank a) t :=
  ⟨fun b _ ↦ hfollows.neg_iff a b, fun b _ ↦ hfollows.pos_iff a b⟩

theorem Filled.empty (hroot : h.root btree = none) (rank : ι → ω) :
    Filled h btree rank [] .nil :=
  ⟨⟨hroot, List.nodup_nil⟩, arranged_nil, by simp, by simp⟩

theorem Filled.numNodes_le (hfilled : Filled h btree rank items t) :
    t.numNodes ≤ items.length := by
  rw [← length_inorder]
  exact (hfilled.represents.nodup.subperm hfilled.mem).length_le

variable [DecidableEq ι] [DecidableEq τ]

/-- Items are put on a tree one after another. -/
def addAll (keyCompare : κ → κ → ℤ) (fuel : ℕ) (btree : τ) (rebalance : Bool) :
    List ι → Heap ι κ τ → Option (Heap ι κ τ)
  | [], h => some h
  | a :: items, h => do
      let h ← balancedBTreeAdd keyCompare fuel h btree (some a) rebalance
      addAll keyCompare fuel btree rebalance items h

omit [DecidableEq ι] [DecidableEq τ] in
/-- Rebalancing keeps the items and their order. -/
theorem Filled.rebalanced {h' : Heap ι κ τ} {rebalance : Bool}
    (hfilled : Filled h btree rank items t)
    (hrep : Represents h' btree (BTree.rebalanced rebalance t)) :
    Filled h' btree rank items (BTree.rebalanced rebalance t) := by
  obtain ⟨-, harranged, hmem, hcovers⟩ := hfilled
  refine ⟨hrep, ?_, ?_, ?_⟩
  · rw [Arranged, inorder_rebalanced]
    exact harranged
  · rw [inorder_rebalanced]
    exact hmem
  · rw [inorder_rebalanced]
    exact hcovers

theorem Filled.add (hfollows : Follows keyCompare h.key rank)
    (hfilled : Filled h btree rank items t) {a : ι} (ha : a ∉ items)
    (hfuel : items.length < fuel) (rebalance : Bool) :
    ∃ h' t', balancedBTreeAdd keyCompare fuel h btree (some a) rebalance = some h' ∧
      h'.key = h.key ∧ h'.visited = h.visited ∧ Filled h' btree rank (a :: items) t' := by
  have hat : a ∉ inorder t := fun hmem ↦ ha (hfilled.mem a hmem)
  obtain ⟨h', hrun, hframe, hcases⟩ := balancedBTreeAdd_cases keyCompare hfilled.represents hat
    (hfilled.numNodes_le.trans_lt hfuel) rebalance
  have hagrees := hfollows.agrees a t
  rcases hcases with hrep | ⟨hrep, b, hb, hzero⟩
  · refine ⟨h', _, hrun, hframe.key, hframe.visited, hrep, ?_, ?_, ?_⟩
    · rw [Arranged, inorder_rebalanced]
      exact hfilled.arranged.insert hagrees
    · intro b hb
      rw [inorder_rebalanced, mem_inorder_insert] at hb
      exact List.mem_cons.mpr (hb.imp_right (hfilled.mem b))
    · intro b hb
      simp only [inorder_rebalanced, mem_inorder_insert]
      rcases List.mem_cons.mp hb with rfl | hb
      · exact ⟨b, .inl rfl, rfl⟩
      · obtain ⟨c, hc, hrank⟩ := hfilled.covers b hb
        exact ⟨c, .inr hc, hrank⟩
  · have hfilled' := hfilled.rebalanced hrep
    refine ⟨h', _, hrun, hframe.key, hframe.visited, hrep, hfilled'.arranged, ?_, ?_⟩
    · exact fun c hc ↦ List.mem_cons_of_mem a (hfilled'.mem c hc)
    · refine List.forall_mem_cons.mpr ⟨⟨b, ?_, (hagrees.eq_zero_iff hb).mp hzero⟩, hfilled'.covers⟩
      rw [inorder_rebalanced]
      exact hb

theorem Filled.addAll (hfollows : Follows keyCompare h.key rank)
    (hfilled : Filled h btree rank items t) (more : List ι) (hnodup : (more.reverse ++ items).Nodup)
    (hfuel : more.length + items.length ≤ fuel) (rebalance : Bool) :
    ∃ h' t', BTree.addAll keyCompare fuel btree rebalance more h = some h' ∧ h'.key = h.key ∧
      h'.visited = h.visited ∧ Filled h' btree rank (more.reverse ++ items) t' := by
  induction more generalizing h items t with
  | nil => exact ⟨h, t, rfl, rfl, rfl, hfilled⟩
  | cons a more ih =>
      rw [List.reverse_cons, List.append_assoc, List.singleton_append] at hnodup ⊢
      rw [List.length_cons] at hfuel
      have ha : a ∉ items := (List.nodup_cons.mp (List.nodup_append.mp hnodup).2.1).1
      obtain ⟨h₁, t₁, hrun₁, hkey₁, hvisited₁, hfilled₁⟩ :=
        hfilled.add hfollows ha (by omega : items.length < fuel) rebalance
      obtain ⟨h', t', hrun, hkey, hvisited, hfilled'⟩ := ih (hkey₁ ▸ hfollows) hfilled₁ hnodup
        (by rw [List.length_cons]; omega)
      refine ⟨h', t', ?_, hkey.trans hkey₁, hvisited.trans hvisited₁, hfilled'⟩
      rw [BTree.addAll, hrun₁]
      exact hrun

/-- An empty tree is filled with a table. -/
theorem addAll_spec (hfollows : Follows keyCompare h.key rank) (hroot : h.root btree = none)
    (hnodup : items.Nodup) (hfuel : items.length ≤ fuel) (rebalance : Bool) :
    ∃ h' t', addAll keyCompare fuel btree rebalance items h = some h' ∧ h'.key = h.key ∧
      h'.visited = h.visited ∧ Filled h' btree rank items t' := by
  obtain ⟨h', t', hrun, hkey, hvisited, hfilled⟩ := (Filled.empty hroot rank).addAll hfollows
    items (by simpa using hnodup) (by simpa using hfuel) rebalance
  rw [List.append_nil] at hfilled
  refine ⟨h', t', hrun, hkey, hvisited, hfilled.represents, hfilled.arranged, ?_, ?_⟩
  · exact fun a ha ↦ List.mem_reverse.mp (hfilled.mem a ha)
  · exact fun a ha ↦ hfilled.covers a (List.mem_reverse.mpr ha)

end HavokMud.BTree
