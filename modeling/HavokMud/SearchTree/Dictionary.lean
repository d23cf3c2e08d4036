import HavokMud.SearchTree.Index

/-!
# Trees as dictionaries

A tree of entries, each a key with a value, kept in the order of the ranks of its keys.  Two keys of
one rank are the same to the dictionary, which then keeps the key it saw first.
-/

namespace HavokMud.SearchTree

open BinaryTree

variable {κ β ω : Type*}

/-- A comparison of keys that goes by their ranks. -/
structure Ranks [LinearOrder ω] (compare : κ → κ → ℤ) (rank : κ → ω) : Prop where
  neg_iff : ∀ k l, compare k l < 0 ↔ rank k < rank l
  pos_iff : ∀ k l, 0 < compare k l ↔ rank l < rank k

namespace Dictionary

section Operations

variable (compare : κ → κ → ℤ)

/-- The value at a key. -/
def lookup (k : κ) (t : BinaryTree (κ × β)) : Option β :=
  (find (fun e ↦ compare k e.1) t).map Prod.snd

/-- Put a value in the place of the value at a key. -/
def assign (k : κ) (b : β) : BinaryTree (κ × β) → BinaryTree (κ × β)
  | .nil => .nil
  | .node e l r =>
      if compare k e.1 = 0 then .node (e.1, b) l r
      else if compare k e.1 < 0 then .node e (assign k b l) r
      else .node e l (assign k b r)

/-- Hang a new entry, and rebalance or not. -/
def add (rebalance : Bool) (k : κ) (b : β) (t : BinaryTree (κ × β)) : BinaryTree (κ × β) :=
  let added := insert (fun e ↦ compare k e.1) (k, b) t
  if rebalance then balance added else added

/-- Find the entry of a key and change its value, or add the entry. -/
def put (rebalance : Bool) (k : κ) (b : β) (t : BinaryTree (κ × β)) : BinaryTree (κ × β) :=
  if (lookup compare k t).isSome then assign compare k b t else add compare rebalance k b t

/-- Remove the entry of a key. -/
def erase (k : κ) : BinaryTree (κ × β) → BinaryTree (κ × β)
  | .nil => .nil
  | .node e l r =>
      if compare k e.1 = 0 then dropRoot (.node e l r)
      else if compare k e.1 < 0 then .node e (erase k l) r
      else .node e l (erase k r)

end Operations

section Meaning

variable [LinearOrder ω] (rank : κ → ω)

/-- The entries stand in the order of their ranks. -/
def Ordered (t : BinaryTree (κ × β)) : Prop :=
  Sorted (fun e : κ × β ↦ rank e.1) t

/-- What the dictionary holds at a rank. -/
def value (t : BinaryTree (κ × β)) (w : ω) : Option β :=
  ((inorder t).find? fun e ↦ rank e.1 = w).map Prod.snd

end Meaning

variable [LinearOrder ω] {compare : κ → κ → ℤ} {rank : κ → ω} {t : BinaryTree (κ × β)} {k : κ}
  {b : β}

theorem ordered_nil : Ordered rank (.nil : BinaryTree (κ × β)) :=
  sorted_nil

/-- The value as a search, whatever way ranks are compared in it. -/
theorem value_eq_find? [DecidableEq ω] (w : ω) :
    value rank t w = ((inorder t).find? fun e ↦ rank e.1 = w).map Prod.snd := by
  unfold value
  congr!

/-- Entries of one rank are one entry. -/
theorem Ordered.eq_of_rank (ht : Ordered rank t) {e e' : κ × β} (he : e ∈ inorder t)
    (he' : e' ∈ inorder t) (hrank : rank e.1 = rank e'.1) : e = e' := by
  by_contra hne
  rcases List.Pairwise.forall_of_forall_of_flip (R := fun x y ↦ x = y ∨ rank x.1 ≠ rank y.1)
    (fun x _ ↦ .inl rfl) (ht.imp fun hlt ↦ .inr hlt.ne)
    (ht.imp fun hlt ↦ .inr hlt.ne') he he' with heq | hrank'
  · exact hne heq
  · exact hrank' hrank

theorem Ordered.value_eq_some_iff (ht : Ordered rank t) {w : ω} :
    value rank t w = some b ↔ ∃ e ∈ inorder t, rank e.1 = w ∧ e.2 = b := by
  unfold value
  rw [Option.map_eq_some_iff]
  constructor
  · rintro ⟨e, hfind, rfl⟩
    exact ⟨e, List.mem_of_find?_eq_some hfind, by simpa using List.find?_some hfind, rfl⟩
  · rintro ⟨e, he, rfl, rfl⟩
    cases hfind : (inorder t).find? fun e' ↦ rank e'.1 = rank e.1 with
    | none =>
        have := List.find?_eq_none.mp hfind e he
        simp at this
    | some e' =>
        have hrank : rank e'.1 = rank e.1 := by simpa using List.find?_some hfind
        exact ⟨e', rfl, by rw [ht.eq_of_rank (List.mem_of_find?_eq_some hfind) he hrank]⟩

theorem value_eq_none_iff {w : ω} : value rank t w = none ↔ ∀ e ∈ inorder t, rank e.1 ≠ w := by
  unfold value
  rw [Option.map_eq_none_iff, List.find?_eq_none]
  simp

theorem agrees (hrank : Ranks compare rank) (k : κ) (t : BinaryTree (κ × β)) :
    Agrees (fun e ↦ compare k e.1) (fun e : κ × β ↦ rank e.1) (rank k) t :=
  ⟨fun e _ ↦ hrank.neg_iff k e.1, fun e _ ↦ hrank.pos_iff k e.1⟩

/-- A lookup finds what the dictionary holds at the rank of the key. -/
theorem Ordered.lookup_eq (hrank : Ranks compare rank) (ht : Ordered rank t) (k : κ) :
    lookup compare k t = value rank t (rank k) := by
  apply Option.ext
  intro b
  rw [ht.value_eq_some_iff]
  unfold lookup
  simp only [Option.map_eq_some_iff, Sorted.find_eq_some_iff ht (agrees hrank k t), and_assoc]

omit [LinearOrder ω] in
/-- A lookup in a tree whose values were mapped. -/
theorem lookup_map {γ : Type*} (compare : κ → κ → ℤ) (f : β → γ) (k : κ)
    (t : BinaryTree (κ × β)) :
    lookup compare k (t.map fun e ↦ (e.1, f e.2)) = (lookup compare k t).map f := by
  unfold lookup
  induction t with
  | nil => rfl
  | node e l r ihl ihr =>
      rw [BinaryTree.map, find, find]
      dsimp only
      split_ifs
      · rfl
      · exact ihl
      · exact ihr

/-! ## Changing a value -/

theorem map_assign_of_ne {xs : List (κ × β)} (h : ∀ e ∈ xs, compare k e.1 ≠ 0) :
    xs.map (fun e ↦ if compare k e.1 = 0 then (e.1, b) else e) = xs := by
  apply List.map_congr_left (g := fun e ↦ e) _ |>.trans (List.map_id' xs)
  intro e he
  rw [if_neg (h e he)]

theorem inorder_assign (hcut : Cut (fun e : κ × β ↦ compare k e.1) (inorder t)) :
    inorder (assign compare k b t) =
      (inorder t).map fun e ↦ if compare k e.1 = 0 then (e.1, b) else e := by
  induction t with
  | nil => rfl
  | node e l r ihl ihr =>
      obtain ⟨hl, hr, -⟩ := Cut.node_iff.mp hcut
      obtain ⟨hleft, hright⟩ := hcut.ne_zero_of_node
      simp only [assign]
      split_ifs with hzero hneg
      · rw [inorder_node, inorder_node, List.map_append, List.map_cons,
          map_assign_of_ne (hleft hzero.ge), map_assign_of_ne (hright hzero.le), if_pos hzero]
      · rw [inorder_node, inorder_node, List.map_append, List.map_cons, ihl hl,
          map_assign_of_ne (hright hneg.le), if_neg hzero]
      · rw [inorder_node, inorder_node, List.map_append, List.map_cons, ihr hr,
          map_assign_of_ne (hleft (by omega)), if_neg hzero]

/-- An entry behind an assignment is an old one, or has an old key and the new value. -/
theorem Ordered.mem_assign (hrank : Ranks compare rank) (ht : Ordered rank t) {e : κ × β}
    (he : e ∈ inorder (assign compare k b t)) :
    e ∈ inorder t ∨ e.2 = b ∧ ∃ c, (e.1, c) ∈ inorder t := by
  rw [inorder_assign (Sorted.cut ht (agrees hrank k t))] at he
  obtain ⟨old, hold, rfl⟩ := List.mem_map.mp he
  split_ifs
  · exact .inr ⟨rfl, old.2, hold⟩
  · exact .inl hold

theorem Ordered.assign (hrank : Ranks compare rank) (ht : Ordered rank t) (k : κ) (b : β) :
    Ordered rank (assign compare k b t) := by
  unfold Ordered Sorted
  rw [inorder_assign (Sorted.cut ht (agrees hrank k t)), List.pairwise_map]
  apply List.Pairwise.imp _ ht
  intro x y hlt
  split_ifs <;> exact hlt

theorem Ordered.value_assign (hrank : Ranks compare rank) (ht : Ordered rank t) (k : κ) (b : β)
    (w : ω) :
    value rank (Dictionary.assign compare k b t) w =
      if w = rank k then (value rank t w).map fun _ ↦ b else value rank t w := by
  have hzero : ∀ e ∈ inorder t, compare k e.1 = 0 ↔ rank e.1 = rank k :=
    fun e he ↦ (agrees hrank k t).eq_zero_iff he
  apply Option.ext
  intro c
  rw [(ht.assign hrank k b).value_eq_some_iff, inorder_assign (Sorted.cut ht (agrees hrank k t))]
  simp only [List.mem_map]
  split_ifs with hw
  · subst hw
    constructor
    · rintro ⟨-, ⟨e, he, rfl⟩, hkey, hvalue⟩
      have hkey' : rank e.1 = rank k := by
        split_ifs at hkey <;> exact hkey
      rw [if_pos ((hzero e he).mpr hkey')] at hvalue
      rw [ht.value_eq_some_iff.mpr ⟨e, he, hkey', rfl⟩]
      exact congrArg some hvalue
    · intro hmap
      obtain ⟨old, hold, rfl⟩ := Option.map_eq_some_iff.mp hmap
      obtain ⟨e, he, hkey, -⟩ := ht.value_eq_some_iff.mp hold
      refine ⟨_, ⟨e, he, rfl⟩, ?_, ?_⟩ <;> rw [if_pos ((hzero e he).mpr hkey)]
      exact hkey
  · rw [ht.value_eq_some_iff]
    constructor
    · rintro ⟨-, ⟨e, he, rfl⟩, hkey, hvalue⟩
      have hkey' : rank e.1 = w := by
        split_ifs at hkey <;> exact hkey
      rw [if_neg fun h ↦ hw (hkey'.symm.trans ((hzero e he).mp h))] at hvalue
      exact ⟨e, he, hkey', hvalue⟩
    · rintro ⟨e, he, hkey, hvalue⟩
      have hne : compare k e.1 ≠ 0 := fun h ↦ hw (hkey.symm.trans ((hzero e he).mp h))
      refine ⟨_, ⟨e, he, rfl⟩, ?_, ?_⟩ <;> rw [if_neg hne]
      · exact hkey
      · exact hvalue

/-! ## Adding an entry -/

theorem mem_inorder_add {rebalance : Bool} {e : κ × β} :
    e ∈ inorder (add compare rebalance k b t) ↔ e = (k, b) ∨ e ∈ inorder t := by
  unfold add
  cases rebalance with
  | true => exact mem_balance_insert
  | false => exact mem_inorder_insert

theorem Ordered.add (hrank : Ranks compare rank) (ht : Ordered rank t)
    (hfresh : value rank t (rank k) = none) (rebalance : Bool) (b : β) :
    Ordered rank (add compare rebalance k b t) := by
  have hnone := value_eq_none_iff.mp hfresh
  cases rebalance with
  | true => exact Sorted.balance_insert ht (a := (k, b)) (agrees hrank k t) hnone
  | false =>
      exact sorted_insert ht (agrees hrank k t).neg_iff (agrees hrank k t).pos_iff hnone

theorem Ordered.value_add (hrank : Ranks compare rank) (ht : Ordered rank t)
    (hfresh : value rank t (rank k) = none) (rebalance : Bool) (b : β) (w : ω) :
    value rank (Dictionary.add compare rebalance k b t) w =
      if w = rank k then some b else value rank t w := by
  apply Option.ext
  intro c
  rw [(ht.add hrank hfresh rebalance b).value_eq_some_iff]
  simp only [mem_inorder_add]
  split_ifs with hw
  · subst hw
    constructor
    · rintro ⟨e, rfl | he, hkey, hvalue⟩
      · exact congrArg some hvalue
      · exact absurd hkey (value_eq_none_iff.mp hfresh e he)
    · intro hsome
      exact ⟨(k, b), .inl rfl, rfl, Option.some.inj hsome⟩
  · rw [ht.value_eq_some_iff]
    constructor
    · rintro ⟨e, rfl | he, hkey, hvalue⟩
      · exact absurd hkey.symm hw
      · exact ⟨e, he, hkey, hvalue⟩
    · rintro ⟨e, he, hkey, hvalue⟩
      exact ⟨e, .inr he, hkey, hvalue⟩

/-! ## Putting a value -/

theorem Ordered.put (hrank : Ranks compare rank) (ht : Ordered rank t) (rebalance : Bool) (k : κ)
    (b : β) : Ordered rank (put compare rebalance k b t) := by
  unfold Dictionary.put
  rw [ht.lookup_eq hrank]
  split_ifs with hfound
  · exact ht.assign hrank k b
  · exact ht.add hrank (Option.not_isSome_iff_eq_none.mp hfound) rebalance b

theorem Ordered.value_put (hrank : Ranks compare rank) (ht : Ordered rank t) (rebalance : Bool)
    (k : κ) (b : β) (w : ω) :
    value rank (Dictionary.put compare rebalance k b t) w =
      if w = rank k then some b else value rank t w := by
  unfold Dictionary.put
  rw [ht.lookup_eq hrank]
  split_ifs with hfound hw hw
  · subst hw
    obtain ⟨old, hold⟩ := Option.isSome_iff_exists.mp hfound
    rw [ht.value_assign hrank, if_pos rfl, hold]
    rfl
  · rw [ht.value_assign hrank, if_neg hw]
  · rw [ht.value_add hrank (Option.not_isSome_iff_eq_none.mp hfound), if_pos hw]
  · rw [ht.value_add hrank (Option.not_isSome_iff_eq_none.mp hfound), if_neg hw]

/-- An entry behind a put is an old one, or has the new value and an old key or the new one. -/
theorem Ordered.mem_put (hrank : Ranks compare rank) (ht : Ordered rank t) {rebalance : Bool}
    {e : κ × β} (he : e ∈ inorder (Dictionary.put compare rebalance k b t)) :
    e ∈ inorder t ∨ e.2 = b ∧ (e.1 = k ∨ ∃ c, (e.1, c) ∈ inorder t) := by
  unfold Dictionary.put at he
  split_ifs at he
  · rcases ht.mem_assign hrank he with hold | ⟨hvalue, hkey⟩
    · exact .inl hold
    · exact .inr ⟨hvalue, .inr hkey⟩
  · rcases mem_inorder_add.mp he with rfl | hold
    · exact .inr ⟨rfl, .inl rfl⟩
    · exact .inl hold

/-! ## Removing an entry -/

theorem filter_of_ne {xs : List (κ × β)} (h : ∀ e ∈ xs, compare k e.1 ≠ 0) :
    (xs.filter fun e ↦ compare k e.1 ≠ 0) = xs :=
  List.filter_eq_self.mpr fun e he ↦ decide_eq_true (h e he)

theorem inorder_erase (hcut : Cut (fun e : κ × β ↦ compare k e.1) (inorder t)) :
    inorder (erase compare k t) = (inorder t).filter fun e ↦ compare k e.1 ≠ 0 := by
  induction t with
  | nil => rfl
  | node e l r ihl ihr =>
      obtain ⟨hl, hr, -⟩ := Cut.node_iff.mp hcut
      obtain ⟨hleft, hright⟩ := hcut.ne_zero_of_node
      rw [erase, inorder_node, List.filter_append]
      split_ifs with hzero hneg
      · rw [inorder_dropRoot, filter_of_ne (hleft hzero.ge), List.filter_cons_of_neg (by simpa),
          filter_of_ne (hright hzero.le)]
      · rw [inorder_node, ihl hl, List.filter_cons_of_pos (by simpa), filter_of_ne (hright hneg.le)]
      · rw [inorder_node, ihr hr, List.filter_cons_of_pos (by simpa),
          filter_of_ne (hleft (by omega))]

theorem Ordered.mem_erase (hrank : Ranks compare rank) (ht : Ordered rank t) {e : κ × β} :
    e ∈ inorder (erase compare k t) ↔ e ∈ inorder t ∧ rank e.1 ≠ rank k := by
  rw [inorder_erase (Sorted.cut ht (agrees hrank k t)), List.mem_filter]
  refine and_congr_right fun he ↦ ?_
  rw [decide_eq_true_iff]
  exact not_congr ((agrees hrank k t).eq_zero_iff he)

theorem Ordered.erase (hrank : Ranks compare rank) (ht : Ordered rank t) (k : κ) :
    Ordered rank (erase compare k t) := by
  unfold Ordered Sorted
  rw [inorder_erase (Sorted.cut ht (agrees hrank k t))]
  exact List.Pairwise.filter _ ht

theorem Ordered.value_erase (hrank : Ranks compare rank) (ht : Ordered rank t) (k : κ) (w : ω) :
    value rank (Dictionary.erase compare k t) w = if w = rank k then none else value rank t w := by
  apply Option.ext
  intro c
  rw [(ht.erase hrank k).value_eq_some_iff]
  simp only [ht.mem_erase hrank]
  split_ifs with hw
  · subst hw
    simp +contextual
  · rw [ht.value_eq_some_iff]
    constructor
    · rintro ⟨e, ⟨he, -⟩, hkey, hvalue⟩
      exact ⟨e, he, hkey, hvalue⟩
    · rintro ⟨e, he, hkey, hvalue⟩
      exact ⟨e, ⟨he, fun h ↦ hw (hkey.symm.trans h)⟩, hkey, hvalue⟩

/-! ## Rebalancing -/

theorem Ordered.balance (ht : Ordered rank t) : Ordered rank (balance t) := by
  unfold Ordered Sorted
  rw [inorder_balance]
  exact ht

theorem value_balance (t : BinaryTree (κ × β)) :
    value rank (SearchTree.balance t) = value rank t := by
  funext w
  unfold value
  rw [inorder_balance]

end Dictionary

end HavokMud.SearchTree
