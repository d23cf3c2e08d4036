import HavokMud.BTree.Walks

/-!
# The order of a walk

After `BalancedBTreeClearVisited` the least item and then `BalancedBTreeFindNext` from the last item
again and again give the items of a tree from left to right.  The items up to the last one are
counted and those to come are not.  In a walk with a check, items that were passed over may not be
counted either, as long as the check passes over them again.
-/

namespace HavokMud.BTree

open BinaryTree SearchTree

variable {ι κ τ : Type} [DecidableEq ι] {h : Heap ι κ τ} {v : ι → ℕ} {t : BinaryTree ι}
  {before after : List ι} {a : ι} {check : ι → Option (Option ι)}

/-- The walk that has moved on to an item, which ends it there if that is not counted and the check
says so. -/
def walkAt (fuel : ℕ) (check : ι → Option (Option ι)) (turns : ℕ) (h : Heap ι κ τ) :
    Option ι → Option (Heap ι κ τ × Option ι)
  | none => some (h, none)
  | some item =>
      match if h.visited item = 0 then check item else none with
      | some retitem => some (h, retitem)
      | none => findNextLoop fuel check turns h item

theorem findNextLoop_succ (fuel turns : ℕ) (h : Heap ι κ τ) (a : ι) :
    findNextLoop fuel check (turns + 1) h a =
      (visitNext fuel h a).bind fun next ↦ walkAt fuel check turns next.1 next.2 := by
  rw [findNextLoop, Option.bind_eq_bind]
  congr 1

/-- An item ahead of the walk was counted or is passed over. -/
def Behind (check : ι → Option (Option ι)) (v : ι → ℕ) (x : ι) : Prop :=
  0 < v x ∨ check x = none

/-- The walk from an item goes on to the first item after it, or else out of the subtree to the
parent. -/
def WalksTo (h : Heap ι κ τ) (check : ι → Option (Option ι)) (v v' : ι → ℕ) (a : ι)
    (next : Option ι) (size n : ℕ) : Prop :=
  ∀ fuel turns, size ≤ fuel → findNextLoop fuel check (turns + n) (h.visit v) a =
    walkAt fuel check turns (h.visit v') next

section Subtrees

variable {parent : Option ι} {r : ι} {left right : BinaryTree ι}

omit [DecidableEq ι] in
theorem right_mem {q : ι} (hr : Subtree h (some r) (h.right r) right) (hq : h.right r = some q) :
    q ∈ inorder right := by
  rw [hq] at hr
  exact hr.root_mem

/-- From the root of a subtree the walk goes to the right side, if there is one. -/
theorem walk_root (hparent : h.parent r = parent) (hr : Subtree h (some r) (h.right r) right)
    (hv : ∀ x ∈ inorder right, counted v r x = 0) :
    WalksTo h check v (counted v r) r ((inorder right).head?.or parent) right.numNodes 1 := by
  intro fuel turns hfuel
  rw [findNextLoop_succ]
  cases hq : h.right r with
  | none =>
      rw [hq] at hr
      obtain rfl : right = .nil := by
        cases right with
        | nil => rfl
        | node q _ _ => cases hr.1
      rw [visitNext_up (by simp [hq]), hparent]
      rfl
  | some q =>
      obtain ⟨z, hz, hnext⟩ := visitNext_down hr hq (hv q (right_mem hr hq))
      rw [hnext fuel hfuel, hz]
      rfl

/-- The walk that comes out of the right side goes up from the root. -/
theorem walk_out (hparent : h.parent r = parent)
    (hright : ∀ q, h.right r = some q → 0 < v q) (hbehind : Behind check v r) (fuel turns : ℕ) :
    walkAt fuel check (turns + 1) (h.visit v) (some r) =
      walkAt fuel check turns (h.visit (counted v r)) parent := by
  have hup : visitNext fuel (h.visit v) r = some (h.visit (counted v r), h.parent r) :=
    visitNext_up fun q hq ↦ (hright q hq).trans_le (le_counted v r q)
  have hpassed : (if (h.visit v).visited r = 0 then check r else none) = none := by
    rcases hbehind with hpos | hcheck
    · have hvisited : (h.visit v).visited r ≠ 0 := hpos.ne'
      rw [if_neg hvisited]
    · rw [hcheck, ite_self]
  simp only [walkAt, hpassed]
  rw [findNextLoop_succ, hup, hparent]
  rfl

end Subtrees

/-- What the walk from an item does to the counts of a subtree before it goes on. -/
structure Leaves (v v' : ι → ℕ) (t : BinaryTree ι) (a : ι) (after : List ι) : Prop where
  outside : ∀ x ∉ inorder t, v' x = v x
  grows : v ≤ v'
  here : 0 < v' a
  after : ∀ x ∈ after, v' x = 0

/-- From every item the walk goes to the next item of a subtree, or comes out of it at its root. -/
theorem walk_subtree {parent p : Option ι} (hsub : Subtree h parent p t)
    (hnodup : (inorder t).Nodup) (hsplit : inorder t = before ++ a :: after)
    (hbefore : ∀ x ∈ before, Behind check v x) (hafter : ∀ x ∈ after, v x = 0) :
    ∃ v' n, n ≤ t.numNodes ∧ Leaves v v' t a after ∧
      (after = [] → ∀ q, p = some q → 0 < v' q) ∧
      WalksTo h check v v' a (after.head?.or parent) t.numNodes n := by
  induction t generalizing parent p v before a after with
  | nil => simp at hsplit
  | node r left right ihl ihr =>
      obtain ⟨rfl, hparent, hl, hr⟩ := hsub
      rw [inorder_node] at hnodup hsplit
      obtain ⟨hnodupl, hnodupr, hdisjoint⟩ := List.nodup_append.mp hnodup
      obtain ⟨hrr, hnodupr⟩ := List.nodup_cons.mp hnodupr
      have hrl : r ∉ inorder left := fun hmem ↦ hdisjoint r hmem r List.mem_cons_self rfl
      have hroot : (∀ x ∈ inorder right, v x = 0) →
          ∃ v' n, n ≤ (BinaryTree.node r left right).numNodes ∧
            Leaves v v' (.node r left right) r (inorder right) ∧
            (inorder right = [] → ∀ q, some r = some q → 0 < v' q) ∧
            WalksTo h check v v' r ((inorder right).head?.or parent)
              (BinaryTree.node r left right).numNodes n := by
        intro hright
        have hzero : ∀ x ∈ inorder right, counted v r x = 0 := by
          intro x hx
          have hxr : x ≠ r := by
            rintro rfl
            exact hrr hx
          rw [counted, Function.update_of_ne hxr]
          exact hright x hx
        refine ⟨counted v r, 1, by simp [BinaryTree.numNodes], ⟨?_, le_counted v r,
          counted_pos v r, hzero⟩, ?_, ?_⟩
        · intro x hx
          have hxr : x ≠ r := by
            rintro rfl
            simp at hx
          exact Function.update_of_ne hxr _ _
        · rintro - q ⟨⟩
          exact counted_pos v r
        · intro fuel turns hfuel
          simp only [BinaryTree.numNodes] at hfuel
          exact walk_root hparent hr hzero fuel turns (by omega)
      rcases List.append_eq_append_iff.mp hsplit with
        ⟨before', rfl, hmid⟩ | ⟨after', hmid, hrest⟩
      · cases before' with
        | nil =>
            simp only [List.nil_append, List.cons.injEq] at hmid
            obtain ⟨rfl, rfl⟩ := hmid
            exact hroot hafter
        | cons r' before' =>
            -- from the right side, out of which the walk comes back to the root
            simp only [List.cons_append, List.cons.injEq] at hmid
            obtain ⟨rfl, hmid⟩ := hmid
            obtain ⟨v', n, hn, hleaves, hout, hwalk⟩ :=
              ihr hr hnodupr hmid (fun x hx ↦ hbefore x (by simp [hx])) hafter
            have houtside : ∀ x ∉ inorder left ++ r :: inorder right, v' x = v x :=
              fun x hx ↦ hleaves.outside x fun hmem ↦ hx (by simp [hmem])
            cases after with
            | cons b after =>
                refine ⟨v', n, ?_, ⟨by simpa using houtside, hleaves.grows, hleaves.here,
                  hleaves.after⟩, by simp, ?_⟩
                · simp only [BinaryTree.numNodes]
                  omega
                · intro fuel turns hfuel
                  simp only [BinaryTree.numNodes] at hfuel
                  exact hwalk fuel turns (by omega)
            | nil =>
                have hbehind : Behind check v' r :=
                  (hbefore r (by simp)).imp_left fun hpos ↦ hpos.trans_le (hleaves.grows r)
                refine ⟨counted v' r, n + 1, ?_, ⟨?_, ?_, ?_, by simp⟩, ?_, ?_⟩
                · simp only [BinaryTree.numNodes]
                  omega
                · intro x hx
                  have hne : x ≠ r := by
                    rintro rfl
                    simp at hx
                  rw [counted, Function.update_of_ne hne]
                  exact houtside x (by simpa using hx)
                · exact hleaves.grows.trans (le_counted v' r)
                · exact hleaves.here.trans_le (le_counted v' r a)
                · rintro - q ⟨⟩
                  exact counted_pos v' r
                · intro fuel turns hfuel
                  simp only [BinaryTree.numNodes] at hfuel
                  have hrun := hwalk fuel (turns + 1) (by omega)
                  rw [Nat.add_right_comm, Nat.add_assoc] at hrun
                  exact hrun.trans (walk_out hparent (hout rfl) hbehind fuel turns)
      · cases after' with
        | nil =>
            simp only [List.nil_append, List.cons.injEq] at hrest
            obtain ⟨rfl, rfl⟩ := hrest
            exact hroot hafter
        | cons a' after' =>
            -- from the left side, out of which the walk comes to the root
            simp only [List.cons_append, List.cons.injEq] at hrest
            obtain ⟨rfl, rfl⟩ := hrest
            obtain ⟨v', n, hn, hleaves, -, hwalk⟩ :=
              ihl hl hnodupl hmid hbefore fun x hx ↦ hafter x (by simp [hx])
            refine ⟨v', n, ?_, ⟨?_, hleaves.grows, hleaves.here, ?_⟩, by simp, ?_⟩
            · simp only [BinaryTree.numNodes]
              omega
            · intro x hx
              exact hleaves.outside x fun hmem ↦ hx (by simp [hmem])
            · intro x hx
              rcases List.mem_append.mp hx with hx' | hx'
              · exact hleaves.after x hx'
              · have hnot : x ∉ inorder left := by
                  rcases List.mem_cons.mp hx' with rfl | hx'
                  · exact hrl
                  · exact fun hmem ↦ hdisjoint x hmem x (List.mem_cons_of_mem r hx') rfl
                rw [hleaves.outside x hnot]
                exact hafter x hx
            · intro fuel turns hfuel
              simp only [BinaryTree.numNodes] at hfuel
              have hrun := hwalk fuel turns (by omega)
              cases after' <;> simpa using hrun

/-- A walk with a check goes from an item of a tree to the one after it. -/
theorem findNextLoop_walkAt {btree : τ} (hrep : Represents h btree t)
    (hsplit : inorder t = before ++ a :: after) (hbefore : ∀ x ∈ before, Behind check v x)
    (hafter : ∀ x ∈ after, v x = 0) {fuel : ℕ} (hfuel : t.numNodes ≤ fuel) :
    ∃ v' turns, Leaves v v' t a after ∧ findNextLoop fuel check fuel (h.visit v) a =
      walkAt fuel check turns (h.visit v') after.head? := by
  obtain ⟨v', n, hn, hleaves, -, hwalk⟩ :=
    walk_subtree hrep.links hrep.nodup hsplit hbefore hafter
  have hrun := hwalk fuel (fuel - n) hfuel
  rw [Nat.sub_add_cancel (hn.trans hfuel), Option.or_none] at hrun
  exact ⟨v', fuel - n, hleaves, hrun⟩

/-- The items before the last one of the walk are counted, and those after it are not. -/
structure Upto (v : ι → ℕ) (before : List ι) (a : ι) (after : List ι) : Prop where
  before : ∀ x ∈ before, 0 < v x
  here : v a = 0
  after : ∀ x ∈ after, v x = 0

/-- `BalancedBTreeFindNext` from an item finds the one after it. -/
theorem findNextLoop_eq {btree : τ} (hrep : Represents h btree t)
    (hsplit : inorder t = before ++ a :: after) (hupto : Upto v before a after) {fuel : ℕ}
    (hfuel : t.numNodes ≤ fuel) :
    ∃ v', findNextLoop fuel (fun item ↦ some (some item)) fuel (h.visit v) a =
        some (h.visit v', after.head?) ∧
      ∀ b after', after = b :: after' → Upto v' (before ++ [a]) b after' := by
  obtain ⟨v', turns, hleaves, hrun⟩ := findNextLoop_walkAt hrep hsplit
    (fun x hx ↦ .inl (hupto.before x hx)) hupto.after hfuel
  refine ⟨v', ?_, ?_⟩
  · rw [hrun]
    cases after with
    | nil => rfl
    | cons b after => simp [walkAt, Heap.visit, hleaves.after b List.mem_cons_self]
  · rintro b after' rfl
    refine ⟨?_, hleaves.after b List.mem_cons_self,
      fun x hx ↦ hleaves.after x (List.mem_cons_of_mem b hx)⟩
    intro x hx
    rcases List.mem_append.mp hx with hx | hx
    · exact (hupto.before x hx).trans_le (hleaves.grows x)
    · obtain rfl := List.mem_singleton.mp hx
      exact hleaves.here

theorem upto_cleared (hsplit : inorder t = a :: after) : Upto (cleared v t) [] a after := by
  refine ⟨by simp, ?_, ?_⟩
  · simp [cleared, hsplit]
  · intro x hx
    simp [cleared, hsplit, hx]

end HavokMud.BTree
