import HavokMud.SearchTree.Basic

/-!
# Walks past visited elements

A walk goes through a tree from left to right until it comes to an element that was not visited.
From an element that was visited it does not go on to a right side whose root was visited.
-/

namespace HavokMud.SearchTree

open BinaryTree

variable {α : Type*} {probe : α → ℤ} {v w : α → ℕ} {t : BinaryTree α} {a b : α}

/-- The root of a tree was visited. -/
def RootVisited (v : α → ℕ) : BinaryTree α → Prop
  | .nil => False
  | .node a _ _ => 0 < v a

instance decidableRootVisited (v : α → ℕ) : (t : BinaryTree α) → Decidable (RootVisited v t)
  | .nil => isFalse not_false
  | .node a _ _ => inferInstanceAs (Decidable (0 < v a))

/-- Where a walk stops that comes to the first element of a tree. -/
def firstMet (v : α → ℕ) : BinaryTree α → Option α
  | .nil => none
  | .node a l r => (firstMet v l).or
      (if v a = 0 then some a else if RootVisited v r then none else firstMet v r)

/-- The walk comes to an element that was not visited, if nothing before it stops it. -/
def Met (v : α → ℕ) (b : α) : BinaryTree α → Prop
  | .nil => False
  | .node a l r => Met v b l ∨ (a = b ∧ v b = 0) ∨ Met v b r ∧ (v a ≠ 0 → ¬ RootVisited v r)

theorem mem_of_firstMet (h : firstMet v t = some a) : a ∈ inorder t ∧ v a = 0 := by
  induction t with
  | nil => cases h
  | node b l r ihl ihr =>
      rw [inorder_node, List.mem_append, List.mem_cons]
      rw [firstMet, Option.or_eq_some_iff] at h
      rcases h with h | ⟨-, h⟩
      · exact ⟨.inl (ihl h).1, (ihl h).2⟩
      · split_ifs at h with hzero hroot
        · obtain rfl := Option.some.inj h
          exact ⟨.inr (.inl rfl), hzero⟩
        · exact ⟨.inr (.inr (ihr h).1), (ihr h).2⟩

theorem Met.mem (h : Met v b t) : b ∈ inorder t := by
  induction t with
  | nil => exact h.elim
  | node a l r ihl ihr =>
      rw [inorder_node, List.mem_append, List.mem_cons]
      rcases h with h | ⟨rfl, -⟩ | ⟨h, -⟩
      · exact .inl (ihl h)
      · exact .inr (.inl rfl)
      · exact .inr (.inr (ihr h))

theorem met_of_firstMet (h : firstMet v t = some a) : Met v a t := by
  induction t with
  | nil => cases h
  | node b l r ihl ihr =>
      rw [firstMet, Option.or_eq_some_iff] at h
      rcases h with h | ⟨-, h⟩
      · exact .inl (ihl h)
      · split_ifs at h with hzero hroot
        · obtain rfl := Option.some.inj h
          exact .inr (.inl ⟨rfl, hzero⟩)
        · exact .inr (.inr ⟨ihr h, fun _ ↦ hroot⟩)

theorem rootVisited_congr (hsame : ∀ x ∈ inorder t, w x = 0 ↔ v x = 0) :
    RootVisited w t ↔ RootVisited v t := by
  cases t with
  | nil => rfl
  | node a l r =>
      have ha := hsame a (by simp)
      simp only [RootVisited]
      omega

/-- The walk depends on no more than which elements were visited. -/
theorem firstMet_congr (hsame : ∀ x ∈ inorder t, w x = 0 ↔ v x = 0) :
    firstMet w t = firstMet v t := by
  induction t with
  | nil => rfl
  | node a l r ihl ihr =>
      have ha := hsame a (by simp)
      have hl := ihl fun x hx ↦ hsame x (by simp [hx])
      have hr := ihr fun x hx ↦ hsame x (by simp [hx])
      have hroot : RootVisited w r ↔ RootVisited v r :=
        rootVisited_congr fun x hx ↦ hsame x (by simp [hx])
      simp only [firstMet, ha, hl, hr, hroot]

/-! ## Walks for a probe -/

theorem Falling.neg_of_append {xs ys : List α} (hfalling : Falling probe (xs ++ ys)) {x y : α}
    (hx : x ∈ xs) (hy : y ∈ ys) (hneg : probe x < 0) : probe y < 0 :=
  ((List.pairwise_append.mp hfalling).2.2 x hx y hy).2 hneg

/-- Past elements where the probe has fallen below zero the walk meets no zero.  So it stops at a
zero if it comes to one at all. -/
theorem Falling.firstMet_zero_iff (hfalling : Falling probe (inorder t))
    (hle : ∀ x ∈ inorder t, probe x ≤ 0) :
    (∃ a, firstMet v t = some a ∧ probe a = 0) ↔ ∃ b, probe b = 0 ∧ Met v b t := by
  constructor
  · rintro ⟨a, hfirst, hzero⟩
    exact ⟨a, hzero, met_of_firstMet hfirst⟩
  · rintro ⟨b, hzero, hmet⟩
    induction t with
    | nil => exact hmet.elim
    | node c l r ihl ihr =>
        obtain ⟨hfallingl, hfallingr, -, hcr⟩ := hfalling.node
        have hbefore : ∀ x ∈ inorder l, b ∈ c :: inorder r → probe x = 0 := fun x hx hb ↦ by
          have hneg := mt (hfalling.neg_of_append hx hb) hzero.not_lt
          have hx := hle x (by simp [hx])
          omega
        rw [firstMet]
        cases hfirst : firstMet v l with
        | some x =>
            refine ⟨x, rfl, ?_⟩
            rcases hmet with hmet | ⟨rfl, -⟩ | ⟨hmet, -⟩
            · obtain ⟨a, ha, hprobe⟩ := ihl hfallingl (fun x hx ↦ hle x (by simp [hx])) hmet
              rw [hfirst] at ha
              rwa [Option.some.inj ha]
            · exact hbefore x (mem_of_firstMet hfirst).1 (by simp)
            · exact hbefore x (mem_of_firstMet hfirst).1 (by simp [hmet.mem])
        | none =>
            rw [Option.none_or]
            rcases hmet with hmet | ⟨rfl, hunvisited⟩ | ⟨hmet, hroot⟩
            · obtain ⟨a, ha, -⟩ := ihl hfallingl (fun x hx ↦ hle x (by simp [hx])) hmet
              rw [hfirst] at ha
              cases ha
            · exact ⟨c, if_pos hunvisited, hzero⟩
            · by_cases hunvisited : v c = 0
              · refine ⟨c, if_pos hunvisited, ?_⟩
                have hneg := mt (hcr b hmet.mem) hzero.not_lt
                have hc := hle c (by simp)
                omega
              · rw [if_neg hunvisited, if_neg (hroot hunvisited)]
                exact ihr hfallingr (fun x hx ↦ hle x (by simp [hx])) hmet

/-- The right side of the element that a search finds. -/
def rightOfFound (probe : α → ℤ) : BinaryTree α → BinaryTree α
  | .nil => .nil
  | .node a l r =>
      if probe a = 0 then r
      else if probe a < 0 then rightOfFound probe l
      else rightOfFound probe r

/-- On the right of the element that a search finds, the walk comes to another one at which the
probe answers zero. -/
def Contested (probe : α → ℤ) (v : α → ℕ) (t : BinaryTree α) : Prop :=
  ¬ RootVisited v (rightOfFound probe t) ∧ ∃ b, probe b = 0 ∧ Met v b (rightOfFound probe t)

theorem mem_rightOfFound (hnodup : (inorder t).Nodup) (hfind : find probe t = some a)
    (hb : b ∈ inorder (rightOfFound probe t)) : b ∈ inorder t ∧ b ≠ a := by
  induction t with
  | nil => cases hfind
  | node c l r ihl ihr =>
      rw [inorder_node] at hnodup ⊢
      obtain ⟨hnodupl, hnodupr, -⟩ := List.nodup_append.mp hnodup
      obtain ⟨hcr, hnodupr⟩ := List.nodup_cons.mp hnodupr
      unfold find at hfind
      unfold rightOfFound at hb
      split_ifs at hfind hb with hzero hneg
      · obtain rfl := Option.some.inj hfind
        refine ⟨by simp [hb], ?_⟩
        rintro rfl
        exact hcr hb
      · obtain ⟨hmem, hne⟩ := ihl hnodupl hfind hb
        exact ⟨by simp [hmem], hne⟩
      · obtain ⟨hmem, hne⟩ := ihr hnodupr hfind hb
        exact ⟨by simp [hmem], hne⟩

/-- There is a second zero where the search is contested. -/
theorem Contested.exists_other (hcontested : Contested probe v t) (hnodup : (inorder t).Nodup)
    (hfind : find probe t = some a) : ∃ b ∈ inorder t, probe b = 0 ∧ b ≠ a := by
  obtain ⟨-, b, hzero, hmet⟩ := hcontested
  obtain ⟨hmem, hne⟩ := mem_rightOfFound hnodup hfind hmet.mem
  exact ⟨b, hmem, hzero, hne⟩

end HavokMud.SearchTree
