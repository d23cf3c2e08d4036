import Mathlib.Data.Tree.Basic
import Mathlib.Data.List.Nodup
import Mathlib.Data.List.Perm.Basic
import Mathlib.Data.Int.Notation
import Mathlib.Tactic.Ring
import Mathlib.Tactic.SplitIfs

/-!
# Binary search trees steered by a probe

A search descends a binary tree by the sign of a probe, the outcome of comparing one fixed key
with the key of the visited element: a negative sign goes left, any other sign goes right.  No
order on keys is needed to say what such a search meets.  It is enough that the probe cuts the
in-order sequence, that is, that its sign never rises from left to right.

The operations are the unbalanced ones: hanging a new leaf, looking an element up, taking the
extreme element of a subtree, and closing the gap left by a removed element with its in-order
neighbour from the heavier side.
-/

namespace HavokMud.SearchTree

open BinaryTree
open scoped List

variable {α : Type*}

/-- The elements of a tree from left to right. -/
def inorder : BinaryTree α → List α
  | .nil => []
  | .node a l r => inorder l ++ a :: inorder r

@[simp]
theorem inorder_nil : inorder (.nil : BinaryTree α) = [] := rfl

@[simp]
theorem inorder_node (a : α) (l r : BinaryTree α) :
    inorder (.node a l r) = inorder l ++ a :: inorder r := rfl

@[simp]
theorem length_inorder (t : BinaryTree α) : (inorder t).length = t.numNodes := by
  induction t with
  | nil => rfl
  | node a l r ihl ihr =>
      simp only [inorder_node, List.length_append, List.length_cons, ihl, ihr, numNodes]
      omega

theorem inorder_eq_nil {t : BinaryTree α} : inorder t = [] ↔ t = .nil := by
  cases t <;> simp

/-- A probe cuts a sequence when, past an element that is not below the probed key, every later
element is above it. -/
def Cut (probe : α → ℤ) (xs : List α) : Prop :=
  xs.Pairwise fun x y ↦ probe x ≤ 0 → probe y < 0

theorem Cut.node_iff {probe : α → ℤ} {a : α} {l r : BinaryTree α} :
    Cut probe (inorder (.node a l r)) ↔
      Cut probe (inorder l) ∧ Cut probe (inorder r) ∧
        (∀ x ∈ inorder l, probe x ≤ 0 → probe a < 0) ∧
        (∀ y ∈ inorder r, probe a ≤ 0 → probe y < 0) ∧
        ∀ x ∈ inorder l, ∀ y ∈ inorder r, probe x ≤ 0 → probe y < 0 := by
  unfold Cut
  simp only [inorder_node, List.pairwise_append, List.pairwise_cons, List.mem_cons]
  constructor
  · rintro ⟨hl, ⟨ha, hr⟩, hlr⟩
    exact ⟨hl, hr, fun x hx ↦ hlr x hx a (Or.inl rfl), ha,
      fun x hx y hy ↦ hlr x hx y (Or.inr hy)⟩
  · rintro ⟨hl, hr, hla, har, hlr⟩
    refine ⟨hl, ⟨har, hr⟩, ?_⟩
    rintro x hx y (rfl | hy)
    · exact hla x hx
    · exact hlr x hx y hy

/-- Where the probe at the root does not point to the one side, it is zero nowhere on the other. -/
theorem Cut.ne_zero_of_node {probe : α → ℤ} {a : α} {l r : BinaryTree α}
    (hcut : Cut probe (inorder (.node a l r))) :
    (0 ≤ probe a → ∀ x ∈ inorder l, probe x ≠ 0) ∧
      (probe a ≤ 0 → ∀ x ∈ inorder r, probe x ≠ 0) := by
  obtain ⟨-, -, hla, har, -⟩ := Cut.node_iff.mp hcut
  constructor
  · intro hpos x hx hzero
    have hneg := hla x hx hzero.le
    omega
  · intro hneg x hx hzero
    have hneg' := har x hx hneg
    omega

/-- A sequence that a linear rank sorts strictly is cut by every probe that compares a fixed rank
with the rank of the visited element. -/
theorem Cut.of_rank {ω : Type*} [LinearOrder ω] {rank : α → ω} {key : ω} {probe : α → ℤ}
    {xs : List α} (hsorted : xs.Pairwise fun x y ↦ rank x < rank y)
    (hneg : ∀ x ∈ xs, probe x < 0 ↔ key < rank x)
    (hpos : ∀ x ∈ xs, 0 < probe x ↔ rank x < key) : Cut probe xs := by
  refine hsorted.imp_of_mem ?_
  intro x y hx hy hxy hle
  have hkey : key ≤ rank x := by
    by_contra hlt
    have := (hpos x hx).mpr (not_le.mp hlt)
    omega
  exact (hneg y hy).mpr (lt_of_le_of_lt hkey hxy)

/-! ## Looking an element up -/

/-- The element at which the probe answers zero, if the descent meets one. -/
def find (probe : α → ℤ) : BinaryTree α → Option α
  | .nil => none
  | .node a l r =>
      if probe a = 0 then some a
      else if probe a < 0 then find probe l
      else find probe r

theorem find_some {probe : α → ℤ} {t : BinaryTree α} {a : α} (h : find probe t = some a) :
    a ∈ inorder t ∧ probe a = 0 := by
  induction t with
  | nil => simp [find] at h
  | node b l r ihl ihr =>
      simp only [find] at h
      split_ifs at h with hzero hneg
      · obtain rfl : b = a := by simpa using h
        simp [hzero]
      · have := ihl h
        simp [this]
      · have := ihr h
        simp [this]

/-- The sign of a probe never rises along a sequence, though it may stay zero. -/
def Falling (probe : α → ℤ) (xs : List α) : Prop :=
  xs.Pairwise fun x y ↦ (probe x ≤ 0 → probe y ≤ 0) ∧ (probe x < 0 → probe y < 0)

theorem Cut.falling {probe : α → ℤ} {xs : List α} (hcut : Cut probe xs) : Falling probe xs :=
  hcut.imp fun h ↦ ⟨fun hx ↦ (h hx).le, fun hx ↦ h hx.le⟩

theorem Falling.node {probe : α → ℤ} {a : α} {l r : BinaryTree α}
    (h : Falling probe (inorder (.node a l r))) :
    Falling probe (inorder l) ∧ Falling probe (inorder r) ∧
      (∀ x ∈ inorder l, probe x ≤ 0 → probe a ≤ 0) ∧
      ∀ y ∈ inorder r, probe a < 0 → probe y < 0 := by
  unfold Falling at h
  simp only [inorder_node, List.pairwise_append, List.pairwise_cons, List.mem_cons] at h
  obtain ⟨hl, ⟨ha, hr⟩, hlr⟩ := h
  exact ⟨hl, hr, fun x hx ↦ (hlr x hx a (Or.inl rfl)).1, fun y hy ↦ (ha y hy).2⟩

/-- Where the sign of the probe falls the descent misses no element at which it answers zero, if it
meets none. -/
theorem Falling.find_none {probe : α → ℤ} {t : BinaryTree α} (hfalling : Falling probe (inorder t))
    (h : find probe t = none) {a : α} (ha : a ∈ inorder t) : probe a ≠ 0 := by
  induction t with
  | nil => simp at ha
  | node b l r ihl ihr =>
      obtain ⟨hl, hr, hlb, hbr⟩ := hfalling.node
      simp only [find] at h
      rw [inorder_node, List.mem_append, List.mem_cons] at ha
      split_ifs at h with hzero hneg
      · rcases ha with ha | rfl | ha
        · exact ihl hl h ha
        · exact hzero
        · have := hbr a ha hneg
          omega
      · rcases ha with ha | rfl | ha
        · intro hprobe
          have := hlb a ha hprobe.le
          omega
        · exact hzero
        · exact ihr hr h ha

theorem Falling.find_eq_none_iff {probe : α → ℤ} {t : BinaryTree α}
    (hfalling : Falling probe (inorder t)) :
    find probe t = none ↔ ∀ a ∈ inorder t, probe a ≠ 0 := by
  constructor
  · exact fun h a ha ↦ hfalling.find_none h ha
  · intro h
    cases hfind : find probe t with
    | none => rfl
    | some b =>
        obtain ⟨hb, hb0⟩ := find_some hfind
        exact absurd hb0 (h b hb)

/-- Under a cut the descent misses no element at which the probe answers zero. -/
theorem find_none {probe : α → ℤ} {t : BinaryTree α} (hcut : Cut probe (inorder t))
    (h : find probe t = none) {a : α} (ha : a ∈ inorder t) : probe a ≠ 0 :=
  hcut.falling.find_none h ha

/-- The probe answers zero at no more than one element of a sequence it cuts. -/
theorem Cut.eq_of_zero {probe : α → ℤ} {xs : List α} (hcut : Cut probe xs) {a b : α}
    (ha : a ∈ xs) (hb : b ∈ xs) (hpa : probe a = 0) (hpb : probe b = 0) : a = b := by
  by_contra hne
  induction xs with
  | nil => simp at ha
  | cons x xs ih =>
      obtain ⟨hx, hxs⟩ := List.pairwise_cons.mp hcut
      rcases List.mem_cons.mp ha with rfl | ha'
      · rcases List.mem_cons.mp hb with rfl | hb'
        · exact hne rfl
        · have := hx b hb' (by omega)
          omega
      · rcases List.mem_cons.mp hb with rfl | hb'
        · have := hx a ha' (by omega)
          omega
        · exact ih hxs ha' hb'

/-- Looking up returns exactly the element at which the probe answers zero. -/
theorem find_eq_some_iff {probe : α → ℤ} {t : BinaryTree α} (hcut : Cut probe (inorder t))
    {a : α} : find probe t = some a ↔ a ∈ inorder t ∧ probe a = 0 := by
  constructor
  · exact find_some
  · rintro ⟨ha, hzero⟩
    cases hfind : find probe t with
    | none => exact absurd hzero (find_none hcut hfind ha)
    | some b =>
        obtain ⟨hb, hb0⟩ := find_some hfind
        rw [hcut.eq_of_zero hb ha hb0 hzero]

theorem find_eq_none_iff {probe : α → ℤ} {t : BinaryTree α} (hcut : Cut probe (inorder t)) :
    find probe t = none ↔ ∀ a ∈ inorder t, probe a ≠ 0 :=
  hcut.falling.find_eq_none_iff

/-! ## Hanging a leaf -/

/-- Hang `a` as a new leaf where the descent falls off the tree. -/
def insert (probe : α → ℤ) (a : α) : BinaryTree α → BinaryTree α
  | .nil => .node a .nil .nil
  | .node b l r =>
      if probe b < 0 then .node b (insert probe a l) r else .node b l (insert probe a r)

theorem inorder_insert_perm (probe : α → ℤ) (a : α) (t : BinaryTree α) :
    inorder (insert probe a t) ~ a :: inorder t := by
  induction t with
  | nil => simp [insert]
  | node b l r ihl ihr =>
      unfold insert
      split_ifs
      · exact ihl.append_right _
      · calc
          inorder l ++ b :: inorder (insert probe a r) ~ inorder l ++ b :: a :: inorder r :=
            (ihr.cons b).append_left _
          _ ~ inorder l ++ a :: b :: inorder r := (List.Perm.swap a b _).append_left _
          _ ~ a :: (inorder l ++ b :: inorder r) := List.perm_middle

@[simp]
theorem mem_inorder_insert {probe : α → ℤ} {a x : α} {t : BinaryTree α} :
    x ∈ inorder (insert probe a t) ↔ x = a ∨ x ∈ inorder t := by
  rw [(inorder_insert_perm probe a t).mem_iff, List.mem_cons]

theorem numNodes_insert (probe : α → ℤ) (a : α) (t : BinaryTree α) :
    (insert probe a t).numNodes = t.numNodes + 1 := by
  have h := (inorder_insert_perm probe a t).length_eq
  simpa using h

/-- The descent keeps the order: everything before the new leaf satisfies whatever is known of the
elements the probe does not place above the key, and everything after it the opposite. -/
theorem pairwise_inorder_insert {probe : α → ℤ} {a : α} {t : BinaryTree α}
    {rel : α → α → Prop} (hcut : Cut probe (inorder t)) (hrel : (inorder t).Pairwise rel)
    (hbefore : ∀ x ∈ inorder t, 0 ≤ probe x → rel x a)
    (hafter : ∀ x ∈ inorder t, probe x < 0 → rel a x) :
    (inorder (insert probe a t)).Pairwise rel := by
  induction t with
  | nil => simp [insert]
  | node b l r ihl ihr =>
      obtain ⟨hcl, hcr, hlb, hbr, hlr⟩ := Cut.node_iff.mp hcut
      simp only [inorder_node, List.pairwise_append, List.pairwise_cons, List.mem_cons] at hrel
      obtain ⟨hl, ⟨hb, hr⟩, hcross⟩ := hrel
      have hbeforeL : ∀ x ∈ inorder l, 0 ≤ probe x → rel x a := fun x hx ↦
        hbefore x (by simp [hx])
      have hafterL : ∀ x ∈ inorder l, probe x < 0 → rel a x := fun x hx ↦
        hafter x (by simp [hx])
      have hbeforeR : ∀ x ∈ inorder r, 0 ≤ probe x → rel x a := fun x hx ↦
        hbefore x (by simp [hx])
      have hafterR : ∀ x ∈ inorder r, probe x < 0 → rel a x := fun x hx ↦
        hafter x (by simp [hx])
      unfold insert
      split_ifs with hneg
      · simp only [inorder_node, List.pairwise_append, List.pairwise_cons, List.mem_cons]
        refine ⟨ihl hcl hl hbeforeL hafterL, ⟨hb, hr⟩, ?_⟩
        intro x hx y hy
        rcases mem_inorder_insert.mp hx with rfl | hx
        · rcases hy with rfl | hy
          · exact hafter y (by simp) hneg
          · exact hafter y (by simp [hy]) (hbr y hy (by omega))
        · exact hcross x hx y hy
      · simp only [inorder_node, List.pairwise_append, List.pairwise_cons, List.mem_cons]
        refine ⟨hl, ⟨?_, ihr hcr hr hbeforeR hafterR⟩, ?_⟩
        · intro y hy
          rcases mem_inorder_insert.mp hy with rfl | hy
          · exact hbefore b (by simp) (by omega)
          · exact hb y hy
        · intro x hx y hy
          rcases hy with rfl | hy
          · exact hcross x hx y (Or.inl rfl)
          · rcases mem_inorder_insert.mp hy with rfl | hy
            · refine hbefore x (by simp [hx]) ?_
              by_contra hlt
              have := hlb x hx (by omega)
              omega
            · exact hcross x hx y (Or.inr hy)

/-- Inserting a fresh rank keeps a rank-sorted tree sorted. -/
theorem sorted_insert {ω : Type*} [LinearOrder ω] {rank : α → ω} {probe : α → ℤ} {a : α}
    {t : BinaryTree α} (hsorted : (inorder t).Pairwise fun x y ↦ rank x < rank y)
    (hneg : ∀ x ∈ inorder t, probe x < 0 ↔ rank a < rank x)
    (hpos : ∀ x ∈ inorder t, 0 < probe x ↔ rank x < rank a)
    (hfresh : ∀ x ∈ inorder t, rank x ≠ rank a) :
    (inorder (insert probe a t)).Pairwise fun x y ↦ rank x < rank y := by
  refine pairwise_inorder_insert (Cut.of_rank hsorted hneg hpos) hsorted ?_ ?_
  · intro x hx hge
    refine lt_of_le_of_ne (not_lt.mp ?_) (hfresh x hx)
    intro hlt
    have := (hneg x hx).mpr hlt
    omega
  · exact fun x hx hlt ↦ (hneg x hx).mp hlt

/-! ## Taking an extreme element -/

/-- Split the rightmost element off a tree. -/
def popGreatest : BinaryTree α → Option (α × BinaryTree α)
  | .nil => none
  | .node a l r =>
      match popGreatest r with
      | none => some (a, l)
      | some (g, r') => some (g, .node a l r')

/-- Split the leftmost element off a tree. -/
def popLeast : BinaryTree α → Option (α × BinaryTree α)
  | .nil => none
  | .node a l r =>
      match popLeast l with
      | none => some (a, r)
      | some (m, l') => some (m, .node a l' r)

@[simp]
theorem popGreatest_eq_none {t : BinaryTree α} : popGreatest t = none ↔ t = .nil := by
  cases t with
  | nil => simp [popGreatest]
  | node a l r => simp only [popGreatest]; split <;> simp

@[simp]
theorem popLeast_eq_none {t : BinaryTree α} : popLeast t = none ↔ t = .nil := by
  cases t with
  | nil => simp [popLeast]
  | node a l r => simp only [popLeast]; split <;> simp

theorem inorder_popGreatest {t t' : BinaryTree α} {g : α} (h : popGreatest t = some (g, t')) :
    inorder t = inorder t' ++ [g] := by
  induction t generalizing t' with
  | nil => simp [popGreatest] at h
  | node a l r _ ihr =>
      simp only [popGreatest] at h
      split at h
      · rename_i hr
        obtain rfl := popGreatest_eq_none.mp hr
        obtain ⟨rfl, rfl⟩ : a = g ∧ l = t' := by simpa using h
        simp
      · rename_i g' r' hr
        obtain ⟨rfl, rfl⟩ : g' = g ∧ .node a l r' = t' := by simpa using h
        simp [ihr hr]

theorem inorder_popLeast {t t' : BinaryTree α} {m : α} (h : popLeast t = some (m, t')) :
    inorder t = m :: inorder t' := by
  induction t generalizing t' with
  | nil => simp [popLeast] at h
  | node a l r ihl _ =>
      simp only [popLeast] at h
      split at h
      · rename_i hl
        obtain rfl := popLeast_eq_none.mp hl
        obtain ⟨rfl, rfl⟩ : a = m ∧ r = t' := by simpa using h
        simp
      · rename_i m' l' hl
        obtain ⟨rfl, rfl⟩ : m' = m ∧ .node a l' r = t' := by simpa using h
        simp [ihl hl]

theorem numNodes_popGreatest {t t' : BinaryTree α} {g : α} (h : popGreatest t = some (g, t')) :
    t.numNodes = t'.numNodes + 1 := by
  simpa using congrArg List.length (inorder_popGreatest h)

theorem numNodes_popLeast {t t' : BinaryTree α} {m : α} (h : popLeast t = some (m, t')) :
    t.numNodes = t'.numNodes + 1 := by
  simpa using congrArg List.length (inorder_popLeast h)

/-- The tree read from right to left. -/
def mirror : BinaryTree α → BinaryTree α
  | .nil => .nil
  | .node a l r => .node a (mirror r) (mirror l)

@[simp]
theorem mirror_mirror (t : BinaryTree α) : mirror (mirror t) = t := by
  induction t with
  | nil => rfl
  | node a l r ihl ihr => simp [mirror, ihl, ihr]

@[simp]
theorem inorder_mirror (t : BinaryTree α) : inorder (mirror t) = (inorder t).reverse := by
  induction t with
  | nil => rfl
  | node a l r ihl ihr => simp [mirror, ihl, ihr]

/-- Taking the leftmost element is taking the rightmost one of the mirror image. -/
theorem popGreatest_mirror (t : BinaryTree α) :
    popGreatest (mirror t) = (popLeast t).map fun pair ↦ (pair.1, mirror pair.2) := by
  induction t with
  | nil => rfl
  | node a l r ihl _ =>
      simp only [mirror, popGreatest, popLeast, ihl]
      cases popLeast l <;> rfl

theorem popGreatest_mirror_of_popLeast {t t' : BinaryTree α} {m : α}
    (hpop : popLeast t = some (m, t')) : popGreatest (mirror t) = some (m, mirror t') := by
  rw [popGreatest_mirror, hpop]
  rfl

theorem nodup_mirror {t : BinaryTree α} (hnodup : (inorder t).Nodup) :
    (inorder (mirror t)).Nodup := by
  rw [inorder_mirror]
  exact List.nodup_reverse.mpr hnodup

/-- The greatest element of the left subtree, what is left of that subtree, the root and the right
subtree have nothing in common. -/
structure Apart (x g : α) (l l' r : BinaryTree α) : Prop where
  greatest_mem : g ∈ inorder l
  rest_mem : ∀ y ∈ inorder l', y ∈ inorder l
  left_ne : ∀ y ∈ inorder l, y ≠ x
  left_right : ∀ y ∈ inorder l, y ∉ inorder r
  rest_ne : ∀ y ∈ inorder l', y ≠ g
  right_ne : ∀ y ∈ inorder r, y ≠ g
  root_right : x ∉ inorder r

theorem apart_of_popGreatest {x g : α} {l l' r : BinaryTree α}
    (hnodup : (inorder (.node x l r)).Nodup) (hpop : popGreatest l = some (g, l')) :
    Apart x g l l' r := by
  have hinl := inorder_popGreatest hpop
  simp only [inorder_node, List.nodup_append, List.nodup_cons, List.mem_cons] at hnodup
  obtain ⟨hndl, ⟨hxr, -⟩, hcross⟩ := hnodup
  have hgreatest : g ∈ inorder l := by simp [hinl]
  have hlr : ∀ y ∈ inorder l, y ∉ inorder r := fun y hy hmem ↦ hcross y hy y (Or.inr hmem) rfl
  have hrest : g ∉ inorder l' := by
    rw [hinl, List.nodup_append] at hndl
    exact fun hmem ↦ hndl.2.2 g hmem g (by simp) rfl
  exact {
    greatest_mem := hgreatest
    rest_mem := fun y hy ↦ by simp [hinl, hy]
    left_ne := fun y hy ↦ hcross y hy x (Or.inl rfl)
    left_right := hlr
    rest_ne := fun y hy heq ↦ hrest (heq ▸ hy)
    right_ne := fun y hy heq ↦ hlr g hgreatest (heq ▸ hy)
    root_right := hxr }

/-- The leftmost element of a tree. -/
def least (t : BinaryTree α) : Option α :=
  (popLeast t).map Prod.fst

theorem least_eq_head? (t : BinaryTree α) : least t = (inorder t).head? := by
  unfold least
  cases h : popLeast t with
  | none => simp [popLeast_eq_none.mp h]
  | some pair =>
      obtain ⟨m, t'⟩ := pair
      simp [inorder_popLeast h]

/-! ## Removing an element -/

/-- Fill the root's place with its in-order neighbour, from the left when the left side is the
heavier one and from the right otherwise. -/
def dropRoot : BinaryTree α → BinaryTree α
  | .nil => .nil
  | .node _ l r =>
      if r.numNodes < l.numNodes then
        match popGreatest l with
        | none => .nil
        | some (g, l') => .node g l' r
      else
        match popLeast r with
        | none => .nil
        | some (m, r') => .node m l r'

theorem inorder_dropRoot (a : α) (l r : BinaryTree α) :
    inorder (dropRoot (.node a l r)) = inorder l ++ inorder r := by
  simp only [dropRoot]
  split_ifs with hheavy
  · cases h : popGreatest l with
    | none =>
        obtain rfl := popGreatest_eq_none.mp h
        simp at hheavy
    | some pair =>
        obtain ⟨g, l'⟩ := pair
        simp [inorder_popGreatest h]
  · cases h : popLeast r with
    | none =>
        obtain rfl := popLeast_eq_none.mp h
        have hl : l = .nil := by
          rw [← inorder_eq_nil, ← List.length_eq_zero_iff, length_inorder]
          simpa using hheavy
        simp [hl]
    | some pair =>
        obtain ⟨m, r'⟩ := pair
        simp [inorder_popLeast h]

variable [DecidableEq α]

/-- Remove the node that holds `a`, wherever it stands. -/
def remove (a : α) : BinaryTree α → BinaryTree α
  | .nil => .nil
  | .node b l r =>
      if b = a then dropRoot (.node b l r) else .node b (remove a l) (remove a r)

theorem remove_of_notMem {a : α} {t : BinaryTree α} (h : a ∉ inorder t) : remove a t = t := by
  induction t with
  | nil => rfl
  | node b l r ihl ihr =>
      simp only [inorder_node, List.mem_append, List.mem_cons, not_or] at h
      simp [remove, Ne.symm h.2.1, ihl h.1, ihr h.2.2]

theorem inorder_remove {a : α} {t : BinaryTree α} (hnodup : (inorder t).Nodup) :
    inorder (remove a t) = (inorder t).erase a := by
  induction t with
  | nil => rfl
  | node b l r ihl ihr =>
      have hparts := hnodup
      simp only [inorder_node, List.nodup_append, List.nodup_cons, List.mem_cons] at hparts
      obtain ⟨hl, ⟨hbr, hr⟩, hcross⟩ := hparts
      have hbl : b ∉ inorder l := fun hmem ↦ hcross b hmem b (Or.inl rfl) rfl
      by_cases hb : b = a
      · subst hb
        simp only [remove, if_true, inorder_dropRoot, inorder_node]
        rw [List.erase_append_right _ hbl, List.erase_cons_head]
      · simp only [remove, if_neg hb, inorder_node]
        by_cases hal : a ∈ inorder l
        · have har : a ∉ inorder r := fun hmem ↦ hcross a hal a (Or.inr hmem) rfl
          rw [ihl hl, remove_of_notMem har, List.erase_append_left _ hal]
        · rw [remove_of_notMem hal, ihr hr, List.erase_append_right _ hal,
            List.erase_cons_tail (by simpa using hb)]

theorem mem_inorder_remove {a x : α} {t : BinaryTree α} (hnodup : (inorder t).Nodup) :
    x ∈ inorder (remove a t) ↔ x ≠ a ∧ x ∈ inorder t := by
  rw [inorder_remove hnodup, hnodup.mem_erase_iff]

end HavokMud.SearchTree
