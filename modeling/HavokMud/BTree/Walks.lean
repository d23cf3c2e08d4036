import HavokMud.BTree.Operations
import Mathlib.Data.Finset.Filter
import Mathlib.Data.Finset.Card

/-!
# Walking a tree

`BalancedBTreeFindNext` and `BalancedBTreeFindNextInRange` go from item to item along the links and
count in `visited` how often they come by, which tells a subtree that is still to be walked from one
that is not.  From an item of a tree the walk ends, whatever the counts are.
-/

namespace HavokMud.BTree

open BinaryTree SearchTree

variable {ι κ τ : Type} [DecidableEq ι]

/-- `BalancedBTreeUnvisit`. -/
def balancedBTreeUnvisit : ℕ → Heap ι κ τ → Option ι → Option (Heap ι κ τ)
  | _, h, none => some h
  | 0, _, some _ => none
  | fuel + 1, h, some a => do
      let h := h.setVisited a 0
      let h ← balancedBTreeUnvisit fuel h (h.left a)
      balancedBTreeUnvisit fuel h (h.right a)

/-- One turn of the loops below: the item is counted, and the walk moves on to the least item on the
right, or up. -/
def visitNext (fuel : ℕ) (h : Heap ι κ τ) (item : ι) : Option (Heap ι κ τ × Option ι) :=
  let h := h.setVisited item (h.visited item + 1)
  match h.right item with
  | none => some (h, h.parent item)
  | some right =>
      if h.visited right = 0 then
        (balancedBTreeFindLeast h fuel (some right)).map fun least ↦ (h, least)
      else some (h, h.parent item)

/-- The loop of `BalancedBTreeFindNext` and `BalancedBTreeFindNextInRange`.  The check of an item
that was not visited ends the loop with a result, or lets it go on. -/
def findNextLoop (fuel : ℕ) (check : ι → Option (Option ι)) :
    ℕ → Heap ι κ τ → ι → Option (Heap ι κ τ × Option ι)
  | 0, _, _ => none
  | turns + 1, h, item => do
      let (h, next) ← visitNext fuel h item
      match next with
      | none => some (h, none)
      | some next =>
          match if h.visited next = 0 then check next else none with
          | some retitem => some (h, retitem)
          | none => findNextLoop fuel check turns h next

/-! ## Counts -/

namespace Heap

variable (h : Heap ι κ τ) (a : ι) (n : ℕ)

@[simp] theorem left_setVisited : (h.setVisited a n).left = h.left := rfl
@[simp] theorem right_setVisited : (h.setVisited a n).right = h.right := rfl
@[simp] theorem parent_setVisited : (h.setVisited a n).parent = h.parent := rfl
@[simp] theorem key_setVisited : (h.setVisited a n).key = h.key := rfl
@[simp] theorem btree_setVisited : (h.setVisited a n).btree = h.btree := rfl
@[simp] theorem root_setVisited : (h.setVisited a n).root = h.root := rfl

end Heap

/-- A heap with other counts. -/
def Heap.visit (h : Heap ι κ τ) (v : ι → ℕ) : Heap ι κ τ :=
  { h with visited := v }

omit [DecidableEq ι] in
theorem Subtree.visit {h : Heap ι κ τ} {parent p : Option ι} {t : BinaryTree ι}
    (hsub : Subtree h parent p t) (v : ι → ℕ) : Subtree (h.visit v) parent p t :=
  hsub.congr (fun _ _ ↦ rfl) (fun _ _ ↦ rfl) fun _ _ ↦ rfl

omit [DecidableEq ι] in
theorem Represents.visit {h : Heap ι κ τ} {btree : τ} {t : BinaryTree ι}
    (hrep : Represents h btree t) (v : ι → ℕ) : Represents (h.visit v) btree t :=
  ⟨hrep.links.visit v, hrep.nodup⟩

/-- The count of an item that the walk comes by. -/
def counted (v : ι → ℕ) (a : ι) : ι → ℕ :=
  Function.update v a (v a + 1)

theorem le_counted (v : ι → ℕ) (a : ι) : v ≤ counted v a := by
  intro b
  by_cases hb : b = a
  · subst hb
    simp [counted]
  · simp [counted, hb]

theorem counted_pos (v : ι → ℕ) (a : ι) : 0 < counted v a a := by
  simp [counted]

/-! ## The walk -/

section Walk

variable {size : ℕ} {check : ι → Option (Option ι)} {h : Heap ι κ τ} {v : ι → ℕ}

/-- The walk ends from an item of a tree of at most this size. -/
def Ends (size : ℕ) (check : ι → Option (Option ι)) (h : Heap ι κ τ) (a : ι) : Prop :=
  ∃ n, ∀ fuel turns, size ≤ fuel → n ≤ turns → ∃ r, findNextLoop fuel check turns h a = some r

/-- The walk has moved on to an item and ends. -/
def Arrives (size : ℕ) (check : ι → Option (Option ι)) (h : Heap ι κ τ) : Option ι → Prop
  | none => True
  | some b => h.visited b = 0 ∧ (check b).isSome ∨ Ends size check h b

theorem ends_of_visitNext {h' : Heap ι κ τ} {a : ι} {next : Option ι}
    (hnext : ∀ fuel, size ≤ fuel → visitNext fuel h a = some (h', next))
    (harrives : Arrives size check h' next) : Ends size check h a := by
  cases next with
  | none =>
      refine ⟨1, ?_⟩
      intro fuel turns hfuel hturns
      obtain ⟨turns, rfl⟩ := Nat.exists_eq_add_of_le' hturns
      refine ⟨(h', none), ?_⟩
      simp [findNextLoop, hnext fuel hfuel]
  | some b =>
      rcases harrives with ⟨hunvisited, hcheck⟩ | ⟨n, hn⟩
      · obtain ⟨retitem, hretitem⟩ := Option.isSome_iff_exists.mp hcheck
        refine ⟨1, ?_⟩
        intro fuel turns hfuel hturns
        obtain ⟨turns, rfl⟩ := Nat.exists_eq_add_of_le' hturns
        refine ⟨(h', retitem), ?_⟩
        simp [findNextLoop, hnext fuel hfuel, hunvisited, hretitem]
      · refine ⟨n + 1, ?_⟩
        intro fuel turns hfuel hturns
        obtain ⟨turns, rfl⟩ : ∃ less, turns = less + 1 := ⟨turns - 1, by omega⟩
        obtain ⟨r, hr⟩ := hn fuel turns hfuel (by omega)
        cases hchecked : (if h'.visited b = 0 then check b else none) with
        | none =>
            refine ⟨r, ?_⟩
            simp only [findNextLoop, hnext fuel hfuel, Option.bind_eq_bind, Option.bind_some,
              hchecked, hr]
        | some retitem =>
            refine ⟨(h', retitem), ?_⟩
            simp only [findNextLoop, hnext fuel hfuel, Option.bind_eq_bind, Option.bind_some,
              hchecked]

/-- The walk goes up from an item without an unvisited subtree on the right. -/
theorem visitNext_up {fuel : ℕ} {a : ι} (hright : ∀ q, h.right a = some q → 0 < counted v a q) :
    visitNext fuel (h.visit v) a = some (h.visit (counted v a), h.parent a) := by
  have hcount : (h.visit v).setVisited a ((h.visit v).visited a + 1) = h.visit (counted v a) := rfl
  unfold visitNext
  rw [hcount]
  cases hq : h.right a with
  | none => simp [Heap.visit, hq]
  | some q =>
      have hne : counted v a q ≠ 0 := (hright q hq).ne'
      simp [Heap.visit, hq, hne]

/-- The walk goes down to the first item of the unvisited subtree on the right. -/
theorem visitNext_down {a q : ι} {r : BinaryTree ι} (hsub : Subtree h (some a) (h.right a) r)
    (hq : h.right a = some q) (hunvisited : counted v a q = 0) :
    ∃ z, (inorder r).head? = some z ∧ ∀ fuel, r.numNodes ≤ fuel →
      visitNext fuel (h.visit v) a = some (h.visit (counted v a), some z) := by
  have hcount : (h.visit v).setVisited a ((h.visit v).visited a + 1) = h.visit (counted v a) := rfl
  rw [hq] at hsub
  obtain ⟨z, hz⟩ : ∃ z, least r = some z := by
    obtain ⟨left, right, rfl⟩ := hsub.some_node
    rw [least_eq_head?]
    exact Option.isSome_iff_exists.mp (by simp)
  refine ⟨z, ?_, ?_⟩
  · rw [← least_eq_head?]
    exact hz
  · intro fuel hfuel
    have hleast := balancedBTreeFindLeast_eq (hsub.visit (counted v a)) hfuel
    unfold visitNext
    rw [hcount]
    have hvisited : (h.visit (counted v a)).visited q = 0 := hunvisited
    have hright : (h.visit (counted v a)).right a = some q := hq
    rw [least] at hz
    simp [hright, hvisited, hleast, hz]

/-- A walk that comes out of a subtree, or meets an unvisited item in it, ends if it ends from
there on. -/
theorem ends_of_subtree {parent p : Option ι} {t : BinaryTree ι} (hsub : Subtree h parent p t)
    (hsize : t.numNodes ≤ size) {a : ι} (ha : a ∈ inorder t)
    (hfound : ∀ v', v ≤ v' → 0 < v' a → ∀ z ∈ inorder t, v' z = 0 →
      Arrives size check (h.visit v') (some z))
    (hexit : ∀ v', v ≤ v' → 0 < v' a → (∀ q, p = some q → 0 < v' q) →
      Arrives size check (h.visit v') parent) :
    Ends size check (h.visit v) a := by
  induction t generalizing parent p a v with
  | nil => cases ha
  | node r left right ihl ihr =>
      obtain ⟨rfl, hparent, hl, hr⟩ := hsub
      simp only [BinaryTree.numNodes] at hsize
      -- from the root up
      have hup : ∀ w, v ≤ w → 0 < counted w r a →
          (∀ q, h.right r = some q → 0 < counted w r q) → Ends size check (h.visit w) r := by
        intro w hw ha hright
        refine ends_of_visitNext (fun _ _ ↦ visitNext_up hright) ?_
        rw [hparent]
        refine hexit _ (hw.trans (le_counted w r)) ha ?_
        rintro q ⟨⟩
        exact counted_pos w r
      -- from the root, with its right side first if that was not visited
      have hroot : ∀ w, v ≤ w → 0 < counted w r a → Ends size check (h.visit w) r := by
        intro w hw ha
        by_cases hright : ∀ q, h.right r = some q → 0 < counted w r q
        · exact hup w hw ha hright
        · push Not at hright
          obtain ⟨q, hq, hunvisited⟩ := hright
          have hle := le_counted w r
          obtain ⟨z, hhead, hnext⟩ := visitNext_down hr hq (Nat.le_zero.mp hunvisited)
          have hz : z ∈ inorder right := List.mem_of_mem_head? hhead
          have hmem : ∀ y ∈ inorder right, y ∈ inorder (.node r left right) := by
            intro y hy
            simp [hy]
          refine ends_of_visitNext (fun fuel hfuel ↦ hnext fuel (by omega)) ?_
          by_cases hzero : counted w r z = 0
          · exact hfound _ (hw.trans hle) ha z (hmem z hz) hzero
          · refine .inr (ihr hr (by omega) hz ?_ ?_)
            · intro w' hw' _ y hy
              exact hfound w' ((hw.trans hle).trans hw') (ha.trans_le (hw' a)) y (hmem y hy)
            · intro w' hw' _ hvisited
              refine .inr (hup w' ((hw.trans hle).trans hw') ?_ ?_)
              · exact (ha.trans_le (hw' a)).trans_le (le_counted w' r a)
              · intro q' hq'
                exact (hvisited q' hq').trans_le (le_counted w' r q')
      -- the root is met from below
      have harrive : ∀ w, v ≤ w → 0 < w a → Arrives size check (h.visit w) (some r) := by
        intro w hw ha
        by_cases hzero : w r = 0
        · exact hfound w hw ha r (by simp) hzero
        · exact .inr (hroot w hw (ha.trans_le (le_counted w r a)))
      rw [inorder_node, List.mem_append, List.mem_cons] at ha
      rcases ha with ha | rfl | ha
      · refine ihl hl (by omega) ha ?_ fun w hw ha _ ↦ harrive w hw ha
        intro w hw hpos y hy
        exact hfound w hw hpos y (by simp [hy])
      · exact hroot v le_rfl (counted_pos v a)
      · refine ihr hr (by omega) ha ?_ fun w hw ha _ ↦ harrive w hw ha
        intro w hw hpos y hy
        exact hfound w hw hpos y (by simp [hy])

/-- The walk ends from every item of a tree: an unvisited item that does not end it is visited. -/
theorem ends_of_mem {t : BinaryTree ι} {btree : τ}
    (hrep : Represents h btree t) (hsize : t.numNodes ≤ size) {a : ι} (ha : a ∈ inorder t)
    (v : ι → ℕ) : Ends size check (h.visit v) a := by
  induction hcount : ((inorder t).toFinset.filter fun z ↦ v z = 0 ∧ z ≠ a).card
    using Nat.strong_induction_on generalizing v a with
  | _ n ih =>
      refine ends_of_subtree hrep.links hsize ha ?_ fun _ _ _ _ ↦ trivial
      intro w hw hpos z hz hzero
      by_cases hcheck : (check z).isSome
      · exact .inl ⟨hzero, hcheck⟩
      · refine .inr (ih _ ?_ hz w rfl)
        rw [← hcount]
        have hold : ∀ y, w y = 0 → v y = 0 ∧ y ≠ a := by
          intro y hy
          refine ⟨Nat.le_zero.mp ((hw y).trans hy.le), ?_⟩
          rintro rfl
          exact hpos.ne' hy
        refine Finset.card_lt_card (Finset.ssubset_iff_of_subset ?_ |>.mpr ⟨z, ?_, ?_⟩)
        · intro y hy
          rw [Finset.mem_filter] at hy ⊢
          exact ⟨hy.1, hold y hy.2.1⟩
        · rw [Finset.mem_filter, List.mem_toFinset]
          exact ⟨hz, hold z hzero⟩
        · simp

/-- The walk ends from an item that hangs alone, if it names no parent or one on a tree. -/
theorem ends_of_alone {t : BinaryTree ι} {btree : τ} (hrep : Represents h btree t)
    (hsize : t.numNodes ≤ size) {a : ι} (hright : h.right a = none)
    (hparent : ∀ q, h.parent a = some q → q ∈ inorder t) (v : ι → ℕ) :
    Ends size check (h.visit v) a := by
  refine ends_of_visitNext (fun _ _ ↦ visitNext_up (by simp [hright])) ?_
  cases hq : h.parent a with
  | none => trivial
  | some q => exact .inr (ends_of_mem hrep hsize (hparent q hq) _)

end Walk

/-- The counts of a tree as `BalancedBTreeUnvisit` leaves them. -/
def cleared (v : ι → ℕ) (t : BinaryTree ι) (a : ι) : ℕ :=
  if a ∈ inorder t then 0 else v a

theorem balancedBTreeUnvisit_eq {h : Heap ι κ τ} {parent p : Option ι} {t : BinaryTree ι}
    (hsub : Subtree h parent p t) (v : ι → ℕ) {fuel : ℕ} (hfuel : t.numNodes ≤ fuel) :
    balancedBTreeUnvisit fuel (h.visit v) p = some (h.visit (cleared v t)) := by
  induction t generalizing parent p v fuel with
  | nil =>
      rw [subtree_nil.mp hsub]
      have hsame : cleared v .nil = v := by
        funext x
        simp [cleared]
      rw [hsame]
      cases fuel <;> rfl
  | node a l r ihl ihr =>
      obtain ⟨rfl, -, hl, hr⟩ := hsub
      simp only [BinaryTree.numNodes] at hfuel
      obtain ⟨fuel, rfl⟩ : ∃ less, fuel = less + 1 := ⟨fuel - 1, by omega⟩
      have hleft : balancedBTreeUnvisit fuel ((h.visit v).setVisited a 0)
          (((h.visit v).setVisited a 0).left a) =
            some (h.visit (cleared (Function.update v a 0) l)) := ihl hl _ (by omega)
      have hright : balancedBTreeUnvisit fuel (h.visit (cleared (Function.update v a 0) l))
          ((h.visit (cleared (Function.update v a 0) l)).right a) = _ := ihr hr _ (by omega)
      simp only [balancedBTreeUnvisit, hleft, hright, Option.bind_eq_bind, Option.bind_some]
      congr 2
      funext x
      by_cases hx : x = a
      · simp [cleared, hx]
      · by_cases hr : x ∈ inorder r <;> simp [cleared, hx, hr]

/-! ## All items of a tree -/

/-- The items below a pointer from left to right. -/
def itemsBelow (h : Heap ι κ τ) : ℕ → Option ι → Option (List ι)
  | _, none => some []
  | 0, some _ => none
  | fuel + 1, some a => do
      let left ← itemsBelow h fuel (h.left a)
      let right ← itemsBelow h fuel (h.right a)
      some (left ++ a :: right)

omit [DecidableEq ι] in
theorem itemsBelow_eq {h : Heap ι κ τ} {parent p : Option ι} {t : BinaryTree ι}
    (hsub : Subtree h parent p t) {fuel : ℕ} (hfuel : t.numNodes ≤ fuel) :
    itemsBelow h fuel p = some (inorder t) := by
  induction t generalizing parent p fuel with
  | nil =>
      rw [subtree_nil.mp hsub]
      cases fuel <;> rfl
  | node a l r ihl ihr =>
      obtain ⟨rfl, -, hl, hr⟩ := hsub
      simp only [BinaryTree.numNodes] at hfuel
      obtain ⟨fuel, rfl⟩ : ∃ less, fuel = less + 1 := ⟨fuel - 1, by omega⟩
      have hleft := ihl hl (by omega : l.numNodes ≤ fuel)
      have hright := ihr hr (by omega : r.numNodes ≤ fuel)
      simp [itemsBelow, hleft, hright]

end HavokMud.BTree
