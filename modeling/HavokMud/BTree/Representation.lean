import HavokMud.BTree.Nodes
import HavokMud.SearchTree.Spine

/-!
# The tree a node graph stands for

`Subtree` says that the records below a pointer form a given finite tree with all parent links in
place, and `Context` says the same of everything around one subtree, up to the root of the
`BalancedBTree_t`.  An edit at one place of the graph is then a change of the subtree in its hole.
-/

namespace HavokMud.BTree

open BinaryTree SearchTree

variable {ι κ τ : Type}

/-- Below pointer `p`, whose parent is `parent`, the links form the tree `t`. -/
def Subtree (h : Heap ι κ τ) : Option ι → Option ι → BinaryTree ι → Prop
  | _, p, .nil => p = none
  | parent, p, .node a l r =>
      p = some a ∧ h.parent a = parent ∧
        Subtree h (some a) (h.left a) l ∧ Subtree h (some a) (h.right a) r

/-- The links of tree `btree` around a hole: `parent` is the parent of the hole and `p` the pointer
that leads into it. -/
def Context (h : Heap ι κ τ) (btree : τ) : Spine ι → Option ι → Option ι → Prop
  | .top, parent, p => parent = none ∧ h.root btree = p
  | .left a sibling up, parent, p =>
      parent = some a ∧ h.left a = p ∧ Subtree h (some a) (h.right a) sibling ∧
        Context h btree up (h.parent a) (some a)
  | .right a sibling up, parent, p =>
      parent = some a ∧ h.right a = p ∧ Subtree h (some a) (h.left a) sibling ∧
        Context h btree up (h.parent a) (some a)

/-- The graph of `btree` is the finite tree `t`, with no record in two places. -/
structure Represents (h : Heap ι κ τ) (btree : τ) (t : BinaryTree ι) : Prop where
  links : Subtree h none (h.root btree) t
  nodup : (inorder t).Nodup

@[simp]
theorem subtree_nil {h : Heap ι κ τ} {parent p : Option ι} :
    Subtree h parent p .nil ↔ p = none := Iff.rfl

theorem subtree_node {h : Heap ι κ τ} {parent p : Option ι} {a : ι} {l r : BinaryTree ι} :
    Subtree h parent p (.node a l r) ↔ p = some a ∧ h.parent a = parent ∧
      Subtree h (some a) (h.left a) l ∧ Subtree h (some a) (h.right a) r := Iff.rfl

theorem Subtree.some_node {h : Heap ι κ τ} {parent : Option ι} {a : ι} {t : BinaryTree ι}
    (hsub : Subtree h parent (some a) t) : ∃ l r, t = .node a l r := by
  cases t with
  | nil => simp at hsub
  | node b l r =>
      obtain ⟨hb, -⟩ := subtree_node.mp hsub
      obtain rfl : a = b := by simpa using hb
      exact ⟨l, r, rfl⟩

theorem Subtree.root_mem {h : Heap ι κ τ} {parent : Option ι} {a : ι} {t : BinaryTree ι}
    (hsub : Subtree h parent (some a) t) : a ∈ inorder t := by
  obtain ⟨l, r, rfl⟩ := hsub.some_node
  simp

/-- Every record of a subtree hangs under the parent it names. -/
theorem Subtree.parent_link {h : Heap ι κ τ} {parent p : Option ι} {t : BinaryTree ι} {m : ι}
    (hsub : Subtree h parent p t) (hm : m ∈ inorder t) :
    p = some m ∧ h.parent m = parent ∨
      ∃ q ∈ inorder t, h.parent m = some q ∧ (h.left q = some m ∨ h.right q = some m) := by
  induction t generalizing parent p with
  | nil => simp at hm
  | node a l r ihl ihr =>
      obtain ⟨rfl, hpar, hl, hr⟩ := hsub
      rw [inorder_node, List.mem_append, List.mem_cons] at hm
      rcases hm with hm | rfl | hm
      · right
        rcases ihl hl hm with ⟨hroot, hparent⟩ | ⟨q, hq, hparent, hlink⟩
        · exact ⟨a, by simp, hparent, Or.inl hroot⟩
        · exact ⟨q, by simp [hq], hparent, hlink⟩
      · exact Or.inl ⟨rfl, hpar⟩
      · right
        rcases ihr hr hm with ⟨hroot, hparent⟩ | ⟨q, hq, hparent, hlink⟩
        · exact ⟨a, by simp, hparent, Or.inr hroot⟩
        · exact ⟨q, by simp [hq], hparent, hlink⟩

/-- The child links of a record lead to records of the subtree that name it as their parent. -/
theorem Subtree.child_link {h : Heap ι κ τ} {parent p : Option ι} {t : BinaryTree ι} {q m : ι}
    (hsub : Subtree h parent p t) (hq : q ∈ inorder t)
    (hlink : h.left q = some m ∨ h.right q = some m) :
    m ∈ inorder t ∧ h.parent m = some q := by
  induction t generalizing parent p with
  | nil => simp at hq
  | node a l r ihl ihr =>
      obtain ⟨-, -, hl, hr⟩ := hsub
      rw [inorder_node, List.mem_append, List.mem_cons] at hq
      rcases hq with hq | rfl | hq
      · have := ihl hl hq
        simp [this]
      · rcases hlink with hlink | hlink
        · rw [hlink] at hl
          obtain ⟨l₁, l₂, rfl⟩ := hl.some_node
          exact ⟨by simp, hl.2.1⟩
        · rw [hlink] at hr
          obtain ⟨r₁, r₂, rfl⟩ := hr.some_node
          exact ⟨by simp, hr.2.1⟩
      · have := ihr hr hq
        simp [this]

/-- No record hangs on both sides of another. -/
theorem Subtree.sides_ne {h : Heap ι κ τ} {parent p : Option ι} {t : BinaryTree ι} {q m : ι}
    (hsub : Subtree h parent p t) (hnodup : (inorder t).Nodup) (hq : q ∈ inorder t)
    (hleft : h.left q = some m) : h.right q ≠ some m := by
  induction t generalizing parent p with
  | nil => simp at hq
  | node a l r ihl ihr =>
      obtain ⟨-, -, hl, hr⟩ := hsub
      rw [inorder_node] at hnodup
      have hparts := List.nodup_append.mp hnodup
      rw [inorder_node, List.mem_append, List.mem_cons] at hq
      rcases hq with hq | rfl | hq
      · exact ihl hl hparts.1 hq
      · intro hright
        rw [hleft] at hl
        rw [hright] at hr
        exact hparts.2.2 m hl.root_mem m (by simp [hr.root_mem]) rfl
      · exact ihr hr (List.nodup_cons.mp hparts.2.1).2 hq

/-- The links of a subtree only matter at its own records. -/
theorem Subtree.congr {h h' : Heap ι κ τ} {parent p : Option ι} {t : BinaryTree ι}
    (hsub : Subtree h parent p t)
    (hleft : ∀ a ∈ inorder t, h'.left a = h.left a)
    (hright : ∀ a ∈ inorder t, h'.right a = h.right a)
    (hparent : ∀ a ∈ inorder t, h'.parent a = h.parent a) : Subtree h' parent p t := by
  induction t generalizing parent p with
  | nil => exact hsub
  | node a l r ihl ihr =>
      obtain ⟨hp, hpar, hl, hr⟩ := hsub
      refine ⟨hp, (hparent a (by simp)).trans hpar, ?_, ?_⟩
      · rw [hleft a (by simp)]
        exact ihl hl (fun b hb ↦ hleft b (by simp [hb])) (fun b hb ↦ hright b (by simp [hb]))
          (fun b hb ↦ hparent b (by simp [hb]))
      · rw [hright a (by simp)]
        exact ihr hr (fun b hb ↦ hleft b (by simp [hb])) (fun b hb ↦ hright b (by simp [hb]))
          (fun b hb ↦ hparent b (by simp [hb]))

/-- Hanging a subtree under another parent changes the parent link of its root only. -/
theorem Subtree.reparent {h h' : Heap ι κ τ} {parent parent' p : Option ι} {t : BinaryTree ι}
    (hsub : Subtree h parent p t) (hnodup : (inorder t).Nodup)
    (hleft : ∀ a ∈ inorder t, h'.left a = h.left a)
    (hright : ∀ a ∈ inorder t, h'.right a = h.right a)
    (hroot : ∀ a, p = some a → h'.parent a = parent')
    (hparent : ∀ a ∈ inorder t, p ≠ some a → h'.parent a = h.parent a) :
    Subtree h' parent' p t := by
  cases t with
  | nil => exact hsub
  | node a l r =>
      obtain ⟨rfl, -, hl, hr⟩ := hsub
      rw [inorder_node] at hnodup
      have hal : ∀ b ∈ inorder l, b ≠ a := fun b hb hba ↦
        (List.nodup_append.mp hnodup).2.2 b hb a (by simp) hba
      have har : ∀ b ∈ inorder r, b ≠ a := fun b hb hba ↦
        (List.nodup_cons.mp (List.nodup_append.mp hnodup).2.1).1 (hba ▸ hb)
      refine ⟨rfl, hroot a rfl, ?_, ?_⟩
      · rw [hleft a (by simp)]
        refine hl.congr (fun b hb ↦ hleft b (by simp [hb])) (fun b hb ↦ hright b (by simp [hb])) ?_
        exact fun b hb ↦ hparent b (by simp [hb]) (by simpa using (hal b hb).symm)
      · rw [hright a (by simp)]
        refine hr.congr (fun b hb ↦ hleft b (by simp [hb])) (fun b hb ↦ hright b (by simp [hb])) ?_
        exact fun b hb ↦ hparent b (by simp [hb]) (by simpa using (har b hb).symm)

/-- The links around a hole only matter at the records outside it and at the root of the tree. -/
theorem Context.congr {h h' : Heap ι κ τ} {btree : τ} {c : Spine ι} {parent p : Option ι}
    (hctx : Context h btree c parent p)
    (hroot : h'.root btree = h.root btree)
    (hleft : ∀ a ∈ c.elements, h'.left a = h.left a)
    (hright : ∀ a ∈ c.elements, h'.right a = h.right a)
    (hparent : ∀ a ∈ c.elements, h'.parent a = h.parent a) : Context h' btree c parent p := by
  induction c generalizing parent p with
  | top => exact ⟨hctx.1, hroot.trans hctx.2⟩
  | left a sibling up ih =>
      obtain ⟨hpar, hp, hsib, hup⟩ := hctx
      simp only [Spine.elements, List.mem_cons, List.mem_append] at hleft hright hparent
      refine ⟨hpar, (hleft a (by simp)).trans hp, ?_, ?_⟩
      · rw [hright a (by simp)]
        exact hsib.congr (fun b hb ↦ hleft b (by simp [hb])) (fun b hb ↦ hright b (by simp [hb]))
          (fun b hb ↦ hparent b (by simp [hb]))
      · rw [hparent a (by simp)]
        exact ih hup (fun b hb ↦ hleft b (by simp [hb])) (fun b hb ↦ hright b (by simp [hb]))
          (fun b hb ↦ hparent b (by simp [hb]))
  | right a sibling up ih =>
      obtain ⟨hpar, hp, hsib, hup⟩ := hctx
      simp only [Spine.elements, List.mem_cons, List.mem_append] at hleft hright hparent
      refine ⟨hpar, (hright a (by simp)).trans hp, ?_, ?_⟩
      · rw [hleft a (by simp)]
        exact hsib.congr (fun b hb ↦ hleft b (by simp [hb])) (fun b hb ↦ hright b (by simp [hb]))
          (fun b hb ↦ hparent b (by simp [hb]))
      · rw [hparent a (by simp)]
        exact ih hup (fun b hb ↦ hleft b (by simp [hb])) (fun b hb ↦ hright b (by simp [hb]))
          (fun b hb ↦ hparent b (by simp [hb]))

/-- A represented tree can be read as a hole and what fills it, in every way. -/
theorem subtree_plug_iff {h : Heap ι κ τ} {btree : τ} {c : Spine ι} {t : BinaryTree ι} :
    Subtree h none (h.root btree) (c.plug t) ↔
      ∃ parent p, Context h btree c parent p ∧ Subtree h parent p t := by
  induction c generalizing t with
  | top =>
      constructor
      · intro hsub
        exact ⟨none, h.root btree, ⟨rfl, rfl⟩, hsub⟩
      · rintro ⟨parent, p, ⟨rfl, rfl⟩, hsub⟩
        exact hsub
  | left a sibling up ih =>
      rw [Spine.plug, ih]
      constructor
      · rintro ⟨parent, p, hctx, rfl, rfl, hl, hr⟩
        exact ⟨some a, h.left a, ⟨rfl, rfl, hr, hctx⟩, hl⟩
      · rintro ⟨parent, p, ⟨rfl, rfl, hsib, hup⟩, hsub⟩
        exact ⟨h.parent a, some a, hup, rfl, rfl, hsub, hsib⟩
  | right a sibling up ih =>
      rw [Spine.plug, ih]
      constructor
      · rintro ⟨parent, p, hctx, rfl, rfl, hl, hr⟩
        exact ⟨some a, h.right a, ⟨rfl, rfl, hl, hctx⟩, hr⟩
      · rintro ⟨parent, p, ⟨rfl, rfl, hsib, hup⟩, hsub⟩
        exact ⟨h.parent a, some a, hup, rfl, rfl, hsib, hsub⟩

/-- The parent of a hole does not depend on the heap. -/
theorem Context.parent_unique {h h' : Heap ι κ τ} {btree : τ} {c : Spine ι}
    {parent parent' p p' : Option ι} (hctx : Context h btree c parent p)
    (hctx' : Context h' btree c parent' p') : parent = parent' := by
  cases c with
  | top => rw [hctx.1, hctx'.1]
  | left a sibling up => rw [hctx.1, hctx'.1]
  | right a sibling up => rw [hctx.1, hctx'.1]

/-- The parent of a hole is outside it. -/
theorem Context.parent_mem {h : Heap ι κ τ} {btree : τ} {c : Spine ι} {p : Option ι} {q : ι}
    (hctx : Context h btree c (some q) p) : q ∈ c.elements := by
  cases c with
  | top => simp [Context] at hctx
  | left a sibling up =>
      obtain ⟨hq, -⟩ := hctx
      obtain rfl : q = a := by simpa using hq
      simp [Spine.elements]
  | right a sibling up =>
      obtain ⟨hq, -⟩ := hctx
      obtain rfl : q = a := by simpa using hq
      simp [Spine.elements]

variable [DecidableEq ι] [DecidableEq τ]

/-- Relinking the parent of a hole puts another subtree into it. -/
theorem Context.relink {h : Heap ι κ τ} {btree : τ} {c : Spine ι} {parent : Option ι} {old : ι}
    (hctx : Context h btree c parent (some old)) (hnodup : c.elements.Nodup)
    (hold : old ∉ c.elements) (new : Option ι) :
    Context (h.relink btree parent old new) btree c parent new := by
  cases c with
  | top =>
      obtain ⟨rfl, -⟩ := hctx
      exact ⟨rfl, by simp [Heap.relink, Heap.setRoot]⟩
  | left a sibling up =>
      obtain ⟨rfl, hp, hsib, hup⟩ := hctx
      simp only [Spine.elements, List.nodup_cons, List.mem_append, not_or] at hnodup
      obtain ⟨⟨hasib, haup⟩, -⟩ := hnodup
      have hne : ∀ b, b ∈ inorder sibling ∨ b ∈ up.elements → b ≠ a := by
        rintro b (hb | hb) rfl
        · exact hasib hb
        · exact haup hb
      simp only [Heap.relink, hp, if_true]
      refine ⟨rfl, by simp [Heap.setLeft], ?_, ?_⟩
      · exact hsib.congr (fun b hb ↦ by simp [Heap.setLeft, hne b (Or.inl hb)])
          (fun b _ ↦ rfl) (fun b _ ↦ rfl)
      · exact hup.congr rfl (fun b hb ↦ by simp [Heap.setLeft, hne b (Or.inr hb)])
          (fun b _ ↦ rfl) (fun b _ ↦ rfl)
  | right a sibling up =>
      obtain ⟨rfl, hp, hsib, hup⟩ := hctx
      simp only [Spine.elements, List.nodup_cons, List.mem_append, not_or] at hnodup
      obtain ⟨⟨hasib, haup⟩, -⟩ := hnodup
      have hne : ∀ b, b ∈ inorder sibling ∨ b ∈ up.elements → b ≠ a := by
        rintro b (hb | hb) rfl
        · exact hasib hb
        · exact haup hb
      -- the other child of `a` is the sibling, which does not hold `old`
      have hleft : h.left a ≠ some old := by
        intro heq
        rw [heq] at hsib
        exact hold (by simp [Spine.elements, hsib.root_mem])
      simp only [Heap.relink, if_neg hleft]
      refine ⟨rfl, by simp [Heap.setRight], ?_, ?_⟩
      · exact hsib.congr (fun b _ ↦ rfl)
          (fun b hb ↦ by simp [Heap.setRight, hne b (Or.inl hb)]) (fun b _ ↦ rfl)
      · exact hup.congr rfl (fun b _ ↦ rfl)
          (fun b hb ↦ by simp [Heap.setRight, hne b (Or.inr hb)]) (fun b _ ↦ rfl)

end HavokMud.BTree
