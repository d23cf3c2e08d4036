import HavokMud.BTree.TearDown
import Mathlib.Algebra.Order.BigOperators.Group.List
import Mathlib.Data.List.Flatten
import Mathlib.Data.List.Pairwise

/-!
# Destroying the attributes of a pc

`DestroyAttrib2Tree` and `DestroyAttribTree` free one leaf of a tree and return, and the loops
around them start again at the root, which need not be the same any more.  A leaf of an outer tree
goes with the tree below it.
-/

namespace HavokMud.Attributes.TearDown

open BinaryTree SearchTree BTree BTree.Freeing
open scoped List

variable {ι κ τ ν σ : Type} [DecidableEq ι] [DecidableEq κ] [DecidableEq τ] [DecidableEq ν]

/-- `cJSON_Delete` of a value without children. -/
def cJSONDelete : Cell ι κ τ ν → Run ι κ τ ν σ Unit
  | .value v => memfree (.value v)
  | _ => failure

/-- `(BalancedBTree_t *)item->item`. -/
def subTreeOf : Cell ι κ τ ν → Run ι κ τ ν σ τ
  | .tree t => pure t
  | _ => failure

/-- `*(char **)key`. -/
def textAt (key : κ) : Run ι κ τ ν σ (Option σ) :=
  fun m ↦ if .key key ∈ m.freed then none else some (m.name key, m)

/-- The key of an item is freed, its string first. -/
def freeKey (item : ι) : Run ι κ τ ν σ Unit := do
  memfreeString (← textAt (← field (·.heap.key) item))
  memfree (.key (← field (·.heap.key) item))

/-- The recursion of `DestroyAttrib2Tree` and `DestroyAttribTree`: the first leaf is freed, if
there is one. -/
def destroyLeaf (free : ι → Run ι κ τ ν σ Unit) : ℕ → Option ι → Run ι κ τ ν σ Bool
  | _, none => pure false
  | 0, some _ => failure
  | fuel + 1, some item => do
      if ← destroyLeaf free fuel (← field (·.heap.left) item) then pure true
      else if ← destroyLeaf free fuel (← field (·.heap.right) item) then pure true
      else do
        free item
        pure true

/-- `while( destroy( tree->root ) );` -/
def destroyLeaves (destroy : Option ι → Run ι κ τ ν σ Bool) (tree : τ) : ℕ → Run ι κ τ ν σ Unit
  | 0 => failure
  | fuel + 1 => do
      if ← destroy (← root tree) then destroyLeaves destroy tree fuel else pure ()

/-- A tree is locked, emptied by the loop and destroyed. -/
def destroyAll (destroy : Option ι → Run ι κ τ ν σ Bool) (fuel : ℕ) (tree : τ) :
    Run ι κ τ ν σ Unit := do
  touch (.tree tree)
  destroyLeaves destroy tree fuel
  balancedBTreeDestroy fuel tree

/-- What `DestroyAttrib2Tree` does with a leaf. -/
def destroyAttrib2Item (fuel : ℕ) (item : ι) : Run ι κ τ ν σ Unit := do
  balancedBTreeRemove fuel (← field (·.heap.btree) item) item
  cJSONDelete (← field Memory.contents item)
  freeKey item
  memfree (.item item)

def destroyAttrib2Tree (fuel : ℕ) : Option ι → Run ι κ τ ν σ Bool :=
  destroyLeaf (destroyAttrib2Item fuel) fuel

/-- What `DestroyAttribTree` does with a leaf. -/
def destroyAttribItem (fuel : ℕ) (item : ι) : Run ι κ τ ν σ Unit := do
  let subTree ← subTreeOf (← field Memory.contents item)
  destroyAll (destroyAttrib2Tree fuel) fuel subTree
  balancedBTreeRemove fuel (← field (·.heap.btree) item) item
  freeKey item
  memfree (.item item)

def destroyAttribTree (fuel : ℕ) : Option ι → Run ι κ τ ν σ Bool :=
  destroyLeaf (destroyAttribItem fuel) fuel

/-- The two trees of a `PlayerPC_t`. -/
structure PlayerPC (τ : Type) where
  attribs : Option τ
  sources : Option τ

/-- What `DestroyAttributes` does with one of the two trees. -/
def destroyTree (fuel : ℕ) : Option τ → Run ι κ τ ν σ Unit
  | none => pure ()
  | some tree => destroyAll (destroyAttribTree fuel) fuel tree

def destroyAttributes (fuel : ℕ) :
    Option (PlayerPC τ) → Run ι κ τ ν σ (Option (PlayerPC τ))
  | none => pure none
  | some pc => do
      destroyTree fuel pc.attribs
      let pc := { pc with attribs := none }
      destroyTree fuel pc.sources
      pure (some { pc with sources := none })

/-! ## One leaf after the other -/

/-- All that is freed with a tree, where `below` is freed with each item. -/
def treeCells (tree : τ) (below : ι → List (Cell ι κ τ ν)) (t : BinaryTree ι) :
    List (Cell ι κ τ ν) :=
  (postorder t).flatMap (fun a ↦ below a ++ [.item a]) ++ [.tree tree]

section Distinct

variable {tree : τ} {below : ι → List (Cell ι κ τ ν)} {t : BinaryTree ι} {a b : ι}
  {x : Cell ι κ τ ν}

omit [DecidableEq ι] [DecidableEq κ] [DecidableEq τ] [DecidableEq ν]

theorem mem_treeCells :
    x ∈ treeCells tree below t ↔
      (∃ a ∈ inorder t, x ∈ below a ∨ x = .item a) ∨ x = .tree tree := by
  simp [treeCells, mem_postorder]

/-- Nothing is freed with two items. -/
theorem eq_of_mem_cells (hdistinct : (treeCells tree below t).Nodup) (ha : a ∈ inorder t)
    (hb : b ∈ inorder t) (hxa : x ∈ below a ++ [.item a]) (hxb : x ∈ below b ++ [.item b]) :
    a = b := by
  by_contra hne
  have hpairs := (List.nodup_flatMap.mp (List.nodup_append.mp hdistinct).1).2
  have hsymm : Std.Symm (Function.onFun List.Disjoint fun a ↦ below a ++ [Cell.item a]) :=
    ⟨fun _ _ h _ hx hy ↦ h hy hx⟩
  exact hpairs.forall (mem_postorder.mpr ha) (mem_postorder.mpr hb) hne hxa hxb

/-- What hangs below an item is neither an item of its tree nor the tree. -/
theorem apart_of_mem_below (hdistinct : (treeCells tree below t).Nodup) (ha : a ∈ inorder t)
    (hx : x ∈ below a) : x ≠ .tree tree ∧ (∀ b ∈ inorder t, x ≠ .item b) ∧
      ∀ b ∈ inorder t, b ≠ a → x ∉ below b := by
  obtain ⟨hcells, -, hcross⟩ := List.nodup_append.mp hdistinct
  have hmem : x ∈ (postorder t).flatMap fun a ↦ below a ++ [.item a] :=
    List.mem_flatMap.mpr ⟨a, mem_postorder.mpr ha, by simp [hx]⟩
  refine ⟨hcross x hmem _ (List.mem_singleton_self _), ?_, ?_⟩
  · rintro b hb rfl
    obtain rfl := eq_of_mem_cells (x := .item b) hdistinct ha hb (by simp [hx]) (by simp)
    have hnodup := (List.nodup_flatMap.mp hcells).1 a (mem_postorder.mpr ha)
    exact (List.nodup_append.mp hnodup).2.2 _ hx _ (List.mem_singleton_self _) rfl
  · intro b hb hne hxb
    exact hne (eq_of_mem_cells (x := x) hdistinct hb ha (by simp [hxb]) (by simp [hx]))

end Distinct

/-- A way to free a leaf of a tree, with all that hangs below it. -/
structure FreesLeaves (tree : τ) (free : ι → Run ι κ τ ν σ Unit)
    (below : ι → List (Cell ι κ τ ν)) (Ready : ι → Memory ι κ τ ν σ → Prop) : Prop where
  run : ∀ (m : Memory ι κ τ ν σ) (c : Spine ι) (a : ι),
    Stands m tree (c.plug (.node a .nil .nil)) →
    (treeCells tree below (c.plug (.node a .nil .nil))).Nodup → Ready a m →
    ∃ m', free a m = some ((), m') ∧ Stands m' tree (c.plug .nil) ∧
      TornDown (.tree tree :: .item a :: c.elements.map .item ++ below a) (below a ++ [.item a]) m
        m'
  keep : ∀ (m m' : Memory ι κ τ ν σ) (a : ι) changed gone, TornDown changed gone m m' →
    (∀ x ∈ below a, x ∉ changed ∧ x ∉ gone) → Ready a m → Ready a m'

/-- A tree whose items wait to be freed. -/
structure Waiting (tree : τ) (below : ι → List (Cell ι κ τ ν))
    (Ready : ι → Memory ι κ τ ν σ → Prop) (t : BinaryTree ι) (m : Memory ι κ τ ν σ) : Prop where
  stands : Stands m tree t
  distinct : (treeCells tree below t).Nodup
  ready : ∀ a ∈ inorder t, Ready a m

section Leaves

variable {tree : τ} {free : ι → Run ι κ τ ν σ Unit} {below : ι → List (Cell ι κ τ ν)}
  {Ready : ι → Memory ι κ τ ν σ → Prop} {m : Memory ι κ τ ν σ}

omit [DecidableEq ι] [DecidableEq κ] [DecidableEq τ] [DecidableEq ν] in
/-- When a leaf is freed the others go on waiting. -/
theorem FreesLeaves.leaf (hfree : FreesLeaves tree free below Ready) {c : Spine ι} {a : ι}
    (h : Waiting tree below Ready (c.plug (.node a .nil .nil)) m) :
    ∃ m', free a m = some ((), m') ∧ Waiting tree below Ready (c.plug .nil) m' ∧
      TornDown (treeCells tree below (c.plug (.node a .nil .nil))) (below a ++ [.item a]) m m' := by
  have hmem : ∀ y, y ∈ inorder (c.plug (.node a .nil .nil)) ↔ y = a ∨ y ∈ c.elements := by
    simp [Spine.mem_plug]
  have ha := (hmem a).mpr (.inl rfl)
  obtain ⟨m', hrun, hstands, htorn⟩ := hfree.run m c a h.stands h.distinct (h.ready a ha)
  obtain ⟨before, after, hpost⟩ := postorder_plug c
  have hsub : treeCells tree below (c.plug .nil) <+ treeCells tree below
      (c.plug (.node a .nil .nil)) := by
    refine (List.Sublist.flatMap ?_ _).append_right _
    simp [hpost, postorder]
  refine ⟨m', hrun, ⟨hstands, h.distinct.sublist hsub, ?_⟩, htorn.mono ?_⟩
  · intro b hb
    have hb : b ∈ c.elements := by simpa [Spine.mem_plug] using hb
    have hbt := (hmem b).mpr (.inr hb)
    have hne : b ≠ a := by
      rintro rfl
      have hnodup := Spine.nodup_plug.mp h.stands.represents.nodup
      simp [hb] at hnodup
    refine hfree.keep m m' b _ _ htorn ?_ (h.ready b hbt)
    intro x hx
    obtain ⟨htree, hitem, hbelow⟩ := apart_of_mem_below h.distinct hbt hx
    have hxa := hbelow a ha hne.symm
    constructor
    · simp only [List.cons_append, List.mem_cons, List.mem_append, List.mem_map, not_or]
      refine ⟨htree, hitem a ha, ?_, hxa⟩
      rintro ⟨y, hy, rfl⟩
      exact hitem y ((hmem y).mpr (.inr hy)) rfl
    · simp only [List.mem_append, List.mem_singleton, not_or]
      exact ⟨hxa, hitem a ha⟩
  · intro x hx
    simp only [List.cons_append, List.mem_cons, List.mem_append, List.mem_map] at hx
    rw [mem_treeCells]
    rcases hx with hx | hx | ⟨y, hy, rfl⟩ | hx
    · exact .inr hx
    · exact .inl ⟨a, ha, .inr hx⟩
    · exact .inl ⟨y, (hmem y).mpr (.inr hy), .inr rfl⟩
    · exact .inl ⟨a, ha, .inl hx⟩

/-- `DestroyAttrib2Tree` and `DestroyAttribTree` free the first leaf below a pointer. -/
theorem FreesLeaves.destroyLeaf (hfree : FreesLeaves tree free below Ready) (t : BinaryTree ι)
    (hne : t ≠ .nil) {c : Spine ι} {parent p : Option ι} {fuel : ℕ}
    {m : Memory ι κ τ ν σ} (h : Waiting tree below Ready (c.plug t) m)
    (hsub : Subtree m.heap parent p t) (hfuel : t.numNodes ≤ fuel) :
    ∃ t' a m', TearDown.destroyLeaf free fuel p m = some (true, m') ∧
      postorder t = a :: postorder t' ∧ Waiting tree below Ready (c.plug t') m' ∧
      TornDown (treeCells tree below (c.plug t)) (below a ++ [.item a]) m m' := by
  induction t generalizing c parent p fuel with
  | nil => exact absurd rfl hne
  | node a l r ihl ihr =>
      cases fuel with
      | zero => simp at hfuel
      | succ fuel =>
          simp only [numNodes] at hfuel
          have hfuell : l.numNodes ≤ fuel := by omega
          have hfuelr : r.numNodes ≤ fuel := by omega
          obtain ⟨rfl, -, hl, hr⟩ := hsub
          have hlive := h.stands.live a (by simp [Spine.mem_plug])
          have hnil : ∀ {q}, Subtree m.heap (some a) q .nil →
              TearDown.destroyLeaf free fuel q m = some (false, m) := by
            rintro q rfl
            cases fuel <;> rfl
          rw [TearDown.destroyLeaf, bind_of_some (field_eq_some.mpr ⟨hlive, rfl, rfl⟩)]
          by_cases hlnil : l = .nil
          · subst hlnil
            rw [bind_of_some (hnil hl), if_neg (by simp),
              bind_of_some (field_eq_some.mpr ⟨hlive, rfl, rfl⟩)]
            by_cases hrnil : r = .nil
            · subst hrnil
              obtain ⟨m', hrun, hwait, htorn⟩ := hfree.leaf h
              refine ⟨.nil, a, m', ?_, by simp [postorder], hwait, htorn⟩
              rw [bind_of_some (hnil hr), if_neg (by simp), bind_of_some hrun]
              rfl
            · obtain ⟨r', b, m', hrun, hpost, hwait, htorn⟩ :=
                ihr hrnil (c := .right a .nil c) h hr hfuelr
              refine ⟨.node a .nil r', b, m', ?_, by simp [postorder, hpost], hwait, htorn⟩
              rw [bind_of_some hrun, if_pos rfl]
              rfl
          · obtain ⟨l', b, m', hrun, hpost, hwait, htorn⟩ :=
              ihl hlnil (c := .left a r c) h hl hfuell
            refine ⟨.node a l' r, b, m', ?_, by simp [postorder, hpost], hwait, htorn⟩
            rw [bind_of_some hrun, if_pos rfl]
            rfl

/-- The loop goes on until the tree is empty. -/
theorem FreesLeaves.destroyLeaves (hfree : FreesLeaves tree free below Ready) {t : BinaryTree ι}
    {m : Memory ι κ τ ν σ} {fuel turns : ℕ} (h : Waiting tree below Ready t m)
    (hfuel : t.numNodes ≤ fuel) (hturns : t.numNodes < turns) :
    ∃ m', TearDown.destroyLeaves (TearDown.destroyLeaf free fuel) tree turns m = some ((), m') ∧
      Stands m' tree .nil ∧ TornDown (treeCells tree below t)
        ((postorder t).flatMap fun a ↦ below a ++ [.item a]) m m' := by
  induction turns generalizing t m with
  | zero => simp at hturns
  | succ turns ih =>
      rw [TearDown.destroyLeaves, bind_of_some (root_eq_some.mpr ⟨h.stands.treeLive, rfl, rfl⟩)]
      by_cases hnil : t = .nil
      · subst hnil
        refine ⟨m, ?_, h.stands, .refl _ m⟩
        have hend : TearDown.destroyLeaf free fuel none m = some (false, m) := by
          cases fuel <;> rfl
        rw [h.stands.root_eq_none, bind_of_some hend]
        rfl
      · obtain ⟨t', a, m₁, hrun₁, hpost, hwait, htorn₁⟩ :=
          hfree.destroyLeaf t hnil (c := .top) h h.stands.represents.links hfuel
        have hsize : t.numNodes = t'.numNodes + 1 := by
          have hlength := congrArg List.length hpost
          simpa [(postorder_perm _).length_eq] using hlength
        have hcells : treeCells tree below t =
            below a ++ [.item a] ++ treeCells tree below t' := by
          simp [treeCells, hpost]
        obtain ⟨m', hrun, hstands, htorn⟩ := ih (t := t') hwait (by omega) (by omega)
        refine ⟨m', ?_, hstands, ?_⟩
        · rw [bind_of_some hrun₁, if_pos rfl]
          exact hrun
        · have hdistinct := h.distinct
          rw [hcells] at hdistinct
          have hboth := htorn₁.trans htorn fun b hb hb' ↦
            (List.nodup_append.mp hdistinct).2.2 _ hb _ hb' rfl
          rw [hpost, List.flatMap_cons]
          refine hboth.mono ?_
          rw [Spine.plug, hcells]
          exact List.append_subset.mpr ⟨List.Subset.refl _, List.subset_append_right _ _⟩

/-- The loop with `BalancedBTreeDestroy` after it frees all that waits, and the tree. -/
theorem FreesLeaves.destroy (hfree : FreesLeaves tree free below Ready) {t : BinaryTree ι}
    {m : Memory ι κ τ ν σ} {fuel : ℕ} (h : Waiting tree below Ready t m)
    (hfuel : t.numNodes < fuel) :
    ∃ m', destroyAll (TearDown.destroyLeaf free fuel) fuel tree m = some ((), m') ∧
      TornDown (treeCells tree below t) (treeCells tree below t) m m' := by
  obtain ⟨m₁, hrun₁, hstands, htorn₁⟩ := hfree.destroyLeaves h hfuel.le hfuel
  obtain ⟨m', hrun, htorn⟩ := destroy_empty fuel hstands
  refine ⟨m', ?_, ?_⟩
  · rw [destroyAll, bind_of_some (touch_eq_some (u := ()).mpr ⟨h.stands.treeLive, rfl⟩),
      bind_of_some hrun₁]
    exact hrun
  · simpa [treeCells] using htorn₁.trans htorn fun _ _ ↦ List.not_mem_nil

end Leaves

/-! ## The two trees -/

section Trees

variable {contents : ι → Cell ι κ τ ν} {key : ι → κ} {inner : ι → BinaryTree ι}
  {m m' : Memory ι κ τ ν σ} {a : ι}

/-- What is freed with an inner item. -/
def valueCells (contents : ι → Cell ι κ τ ν) (key : ι → κ) (b : ι) : List (Cell ι κ τ ν) :=
  [contents b, .key (key b)]

/-- An inner item has a value and a key of its own. -/
structure HoldsValue (contents : ι → Cell ι κ τ ν) (key : ι → κ) (b : ι)
    (m : Memory ι κ τ ν σ) : Prop where
  contents_eq : m.contents b = contents b
  key_eq : m.heap.key b = key b
  value : ∃ v, contents b = .value v
  live : ∀ x ∈ valueCells contents key b, x ∉ m.freed

omit [DecidableEq ι] [DecidableEq κ] [DecidableEq τ] [DecidableEq ν] in
/-- A tree that a part of a tear-down does not touch goes on waiting. -/
theorem FreesLeaves.waiting {tree : τ} {free : ι → Run ι κ τ ν σ Unit}
    {below : ι → List (Cell ι κ τ ν)} {Ready : ι → Memory ι κ τ ν σ → Prop}
    (hfree : FreesLeaves tree free below Ready) {t : BinaryTree ι}
    {changed gone : List (Cell ι κ τ ν)} (h : Waiting tree below Ready t m)
    (htorn : TornDown changed gone m m')
    (hapart : ∀ x ∈ treeCells tree below t, x ∉ changed ∧ x ∉ gone) :
    Waiting tree below Ready t m' where
  stands := h.stands.torn htorn
    (fun a ha ↦ hapart _ (mem_treeCells.mpr (.inl ⟨a, ha, .inr rfl⟩)))
    (hapart _ (mem_treeCells.mpr (.inr rfl)))
  distinct := h.distinct
  ready a ha := hfree.keep m m' a changed gone htorn
    (fun _ hx ↦ hapart _ (mem_treeCells.mpr (.inl ⟨a, ha, .inl hx⟩))) (h.ready a ha)

/-- What is freed with an outer item: the tree below it with all its items, and the key. -/
def subTreeCells (contents : ι → Cell ι κ τ ν) (key : ι → κ) (inner : ι → BinaryTree ι) (a : ι) :
    List (Cell ι κ τ ν) :=
  (postorder (inner a)).flatMap (fun b ↦ valueCells contents key b ++ [.item b]) ++
    [contents a, .key (key a)]

/-- An outer item has a tree and a key of its own. -/
structure HoldsTree (contents : ι → Cell ι κ τ ν) (key : ι → κ) (inner : ι → BinaryTree ι)
    (fuel : ℕ) (a : ι) (m : Memory ι κ τ ν σ) : Prop where
  contents_eq : m.contents a = contents a
  key_eq : m.heap.key a = key a
  size : (inner a).numNodes < fuel
  tree : ∃ s, contents a = .tree s ∧
    Waiting s (valueCells contents key) (HoldsValue contents key) (inner a) m
  live : .key (key a) ∉ m.freed

omit [DecidableEq ι] [DecidableEq κ] [DecidableEq τ] [DecidableEq ν] in
theorem subTreeCells_eq {s : τ} (hs : contents a = .tree s) :
    subTreeCells contents key inner a =
      treeCells s (valueCells contents key) (inner a) ++ [.key (key a)] := by
  simp [subTreeCells, treeCells, hs]

end Trees

/-! ## All of it -/

/-- The items on a tree of trees: the outer ones, and below each the inner ones. -/
structure Shape (ι : Type) where
  outer : BinaryTree ι
  inner : ι → BinaryTree ι

namespace Shape

/-- The number of items. -/
def size (s : Shape ι) : ℕ :=
  s.outer.numNodes + ((inorder s.outer).map fun a ↦ (s.inner a).numNodes).sum

/-- A pointer leads to a tree of trees, whose inner items hold values. -/
structure Stored (s : Shape ι) (m : Memory ι κ τ ν σ) (tree : τ) : Prop where
  outer : Owns m.heap tree s.outer
  inner : ∀ a ∈ inorder s.outer, ∃ subTree, m.contents a = .tree subTree ∧
    Owns m.heap subTree (s.inner a)
  values : ∀ a ∈ inorder s.outer, ∀ b ∈ inorder (s.inner a), ∃ v, m.contents b = .value v

/-- The allocations behind a pointer: the trees and the items with their keys and values. -/
def cells (s : Shape ι) (m : Memory ι κ τ ν σ) : Option τ → List (Cell ι κ τ ν)
  | none => []
  | some tree => treeCells tree (subTreeCells m.contents m.heap.key s.inner) s.outer

omit [DecidableEq ι] [DecidableEq κ] [DecidableEq τ] [DecidableEq ν] in
theorem Stored.waiting {s : Shape ι} {m : Memory ι κ τ ν σ} {tree : τ} {fuel : ℕ}
    (h : s.Stored m tree) (hdistinct : (s.cells m (some tree)).Nodup)
    (hlive : ∀ x ∈ s.cells m (some tree), x ∉ m.freed) (hfuel : s.size < fuel) :
    Waiting tree (subTreeCells m.contents m.heap.key s.inner)
      (HoldsTree m.contents m.heap.key s.inner fuel) s.outer m := by
  have hlive : ∀ x ∈ treeCells tree (subTreeCells m.contents m.heap.key s.inner) s.outer,
      x ∉ m.freed := hlive
  refine ⟨⟨h.outer, ?_, ?_⟩, hdistinct, ?_⟩
  · exact fun a ha ↦ hlive _ (mem_treeCells.mpr (.inl ⟨a, ha, .inr rfl⟩))
  · exact hlive _ (mem_treeCells.mpr (.inr rfl))
  · intro a ha
    obtain ⟨subTree, hsub, howns⟩ := h.inner a ha
    have hcells : subTreeCells m.contents m.heap.key s.inner a = _ := subTreeCells_eq hsub
    have hbelow : ∀ x ∈ subTreeCells m.contents m.heap.key s.inner a, x ∉ m.freed :=
      fun x hx ↦ hlive x (mem_treeCells.mpr (.inl ⟨a, ha, .inl hx⟩))
    have hnodup := (List.nodup_append.mp ((List.nodup_flatMap.mp
      (List.nodup_append.mp hdistinct).1).1 a (mem_postorder.mpr ha))).1
    rw [hcells] at hbelow hnodup
    simp only [List.mem_append, mem_treeCells] at hbelow
    refine ⟨rfl, rfl, ?_, ⟨subTree, hsub, ⟨⟨howns, ?_, ?_⟩, (List.nodup_append.mp hnodup).1, ?_⟩⟩,
      ?_⟩
    · have hle := List.single_le_sum (l := (inorder s.outer).map fun a ↦ (s.inner a).numNodes)
        (fun _ _ ↦ Nat.zero_le _) _ (List.mem_map_of_mem ha)
      unfold size at hfuel
      omega
    · exact fun b hb ↦ hbelow _ (.inl (.inl ⟨b, hb, .inr rfl⟩))
    · exact hbelow _ (.inl (.inr rfl))
    · intro b hb
      exact ⟨rfl, rfl, h.values a ha b hb, fun x hx ↦ hbelow x (.inl (.inl ⟨b, hb, .inl hx⟩))⟩
    · exact hbelow _ (.inr (List.mem_singleton_self _))

end Shape

/-- Each of these allocations has been freed once, and nothing else; the items among them are off
all trees. -/
structure FreedOnce (cells : List (Cell ι κ τ ν)) (m m' : Memory ι κ τ ν σ) : Prop where
  once : ∀ x ∈ cells, m'.freed.count x = 1
  only : ∀ x ∉ cells, m'.freed.count x = m.freed.count x
  removed : ∀ a, .item a ∈ cells → BTree.Freeing.Removed m'.heap a

theorem FreedOnce.perm {cells cells' : List (Cell ι κ τ ν)} {m m' : Memory ι κ τ ν σ}
    (h : FreedOnce cells m m') (hperm : cells.Perm cells') : FreedOnce cells' m m' where
  once x hx := h.once x (hperm.mem_iff.mpr hx)
  only x hx := h.only x fun hmem ↦ hx (hperm.mem_iff.mp hmem)
  removed a ha := h.removed a (hperm.mem_iff.mpr ha)

end HavokMud.Attributes.TearDown
