import HavokMud.Objects.Indexes

/-!
# What the indexes list

An index lists an object under a key if the tree of the outer item with that key has an item for the
object; it may have several, where keywords repeat.  Adding and removing under one key change how
often one object is listed under that key in one index, and nothing else.
-/

namespace HavokMud.Objects

open BinaryTree SearchTree BTree

/-- What the callbacks compare. -/
def rank : Key → List ℕ
  | .null => []
  | .word text => fold text.1
  | .object obj => [obj.1]
  | .type flag => [flag.1]

/-- The keys that a tree is for. -/
def Suits : Tree → Key → Prop
  | .keywords _, key => ∃ text, key = .word text
  | .types, key => ∃ flag, key = .type flag
  | .sub _, key => ∃ obj, key = .object obj

theorem singleton_lt_iff {a b : ℕ} : [a] < [b] ↔ a < b := by
  simp [List.cons_lt_cons_iff]

theorem orders (garbage : Key → Key → ℤ) : Orders (keyCompare garbage) Suits rank := by
  constructor
  · intro tree k k' hk hk'
    cases tree with
    | keywords index =>
        obtain ⟨text, rfl⟩ := hk
        obtain ⟨text', rfl⟩ := hk'
        exact keyCompareString_neg_iff text.2 text'.2
    | types =>
        obtain ⟨flag, rfl⟩ := hk
        obtain ⟨flag', rfl⟩ := hk'
        have hneg := keyCompareInt_neg_iff (l := flag) (r := flag') (by omega) (by omega) (by omega)
          (by omega)
        simpa [keyCompare, rank, singleton_lt_iff] using hneg
    | sub n =>
        obtain ⟨obj, rfl⟩ := hk
        obtain ⟨obj', rfl⟩ := hk'
        have hneg := keyComparePointer_neg_iff (l := obj) (r := obj') (by omega) (by omega)
          (by omega) (by omega)
        simpa [keyCompare, rank, singleton_lt_iff] using hneg
  · intro tree k k' hk hk'
    cases tree with
    | keywords index =>
        obtain ⟨text, rfl⟩ := hk
        obtain ⟨text', rfl⟩ := hk'
        exact keyCompareString_pos_iff text.2 text'.2
    | types =>
        obtain ⟨flag, rfl⟩ := hk
        obtain ⟨flag', rfl⟩ := hk'
        have hpos := keyCompareInt_pos_iff (l := flag) (r := flag') (by omega) (by omega) (by omega)
          (by omega)
        simpa [keyCompare, rank, singleton_lt_iff] using hpos
    | sub n =>
        obtain ⟨obj, rfl⟩ := hk
        obtain ⟨obj', rfl⟩ := hk'
        have hpos := keyComparePointer_pos_iff (l := obj) (r := obj') (by omega) (by omega)
          (by omega) (by omega)
        simpa [keyCompare, rank, singleton_lt_iff] using hpos

/-- Is it an outer tree? -/
def Tree.Outer : Tree → Prop
  | .sub _ => False
  | _ => True

/-- The inner items that an outer tree is for. -/
def Kind : Tree → Item → Prop
  | .keywords _, .keywordItem _ _ => True
  | .types, .typeItem _ => True
  | _, _ => False

/-- How often the tree of an outer item has an object. -/
def copiesIn (h : Heap Item Key Tree) (tree : Tree → BinaryTree Item) (n : ℕ) (obj : Address) : ℕ :=
  (inorder (tree (.sub n))).countP fun a ↦ h.key a = .object obj

/-- How often an index lists an object under a key. -/
def copies (h : Heap Item Key Tree) (tree : Tree → BinaryTree Item) (outer : Tree) (r : List ℕ)
    (obj : Address) : ℕ :=
  match (inorder (tree outer)).find? fun a ↦ rank (h.key a) = r with
  | some (.outer n) => copiesIn h tree n obj
  | _ => 0

/-- The indexes are trees of trees. -/
structure Indexed (s : Indexes) (tree : Tree → BinaryTree Item) : Prop where
  forest : Forest Suits rank s.heap tree
  outer : ∀ t, t.Outer → ∀ a ∈ inorder (tree t), ∃ n < s.items, a = .outer n
  distinct : ∀ t, t.Outer → ∀ a ∈ inorder (tree t), ∀ a' ∈ inorder (tree t),
    rank (s.heap.key a) = rank (s.heap.key a') → a = a'
  inner : ∀ n, ∀ a ∈ inorder (tree (.sub n)), ∃ obj, a.object = some obj ∧
    s.heap.key a = .object obj
  hung : ∀ n, ∀ a ∈ inorder (tree (.sub n)), ∃ t, t.Outer ∧ .outer n ∈ inorder (tree t) ∧ Kind t a

theorem indexed_empty : Indexed .empty fun _ ↦ .nil := by
  refine ⟨⟨fun b ↦ ⟨rfl, List.nodup_nil⟩, ?_, fun b ↦ .nil, ?_⟩, ?_, ?_, ?_, ?_⟩ <;>
    simp [inorder]

variable (garbage : Key → Key → ℤ) {fuel : ℕ} {s s' : Indexes} {tree tree' : Tree → BinaryTree Item}
  {t : Tree} {key : Key} {item : Item} {obj : Address} {r : List ℕ} {n : ℕ}

theorem copiesIn_congr {h h' : Heap Item Key Tree}
    (hperm : (inorder (tree' (.sub n))).Perm (inorder (tree (.sub n))))
    (hkeys : ∀ a ∈ inorder (tree (.sub n)), h'.key a = h.key a) :
    copiesIn h' tree' n obj = copiesIn h tree n obj := by
  unfold copiesIn
  rw [hperm.countP_eq]
  refine List.countP_congr ?_
  intro a ha
  rw [hkeys a ha]

/-! ## What changes -/

/-- Only the heap and the number of outer items change. -/
structure SameObjects (s s' : Indexes) : Prop where
  words : s'.words = s.words
  keywordItem : s'.keywordItem = s.keywordItem
  typeFlag : s'.typeFlag = s.typeFlag
  live : s'.live = s.live

theorem SameObjects.trans {s₁ s₂ s₃ : Indexes} (h₁ : SameObjects s₁ s₂) (h₂ : SameObjects s₂ s₃) :
    SameObjects s₁ s₃ :=
  ⟨h₂.words.trans h₁.words, h₂.keywordItem.trans h₁.keywordItem, h₂.typeFlag.trans h₁.typeFlag,
    h₂.live.trans h₁.live⟩

/-- No tree grows by more than one item. -/
def Grows (tree tree' : Tree → BinaryTree Item) : Prop :=
  ∀ b, (tree' b).numNodes ≤ (tree b).numNodes + 1

/-- No tree has a new item. -/
def Shrinks (tree tree' : Tree → BinaryTree Item) : Prop :=
  ∀ b, (inorder (tree' b)).Subperm (inorder (tree b))

theorem Shrinks.numNodes_le (hshrinks : Shrinks tree tree') (b : Tree) :
    (tree' b).numNodes ≤ (tree b).numNodes := by
  rw [← length_inorder, ← length_inorder]
  exact (hshrinks b).length_le

/-- An object is listed once more under a key of an index, where it may be listed already, and
nothing else changes. -/
structure Gains (h : Heap Item Key Tree) (tree : Tree → BinaryTree Item) (h' : Heap Item Key Tree)
    (tree' : Tree → BinaryTree Item) (t : Tree) (r : List ℕ) (obj : Address) : Prop where
  here : copies h' tree' t r obj = copies h tree t r obj + 1 ∨
    copies h' tree' t r obj = copies h tree t r obj ∧ 0 < copies h tree t r obj
  elsewhere : ∀ t' r' obj', t'.Outer → (t', r', obj') ≠ (t, r, obj) →
    copies h' tree' t' r' obj' = copies h tree t' r' obj'

/-- An object is listed once less under a key of an index, if it was listed, and nothing else
changes. -/
structure Loses (h : Heap Item Key Tree) (tree : Tree → BinaryTree Item) (h' : Heap Item Key Tree)
    (tree' : Tree → BinaryTree Item) (t : Tree) (r : List ℕ) (obj : Address) : Prop where
  here : copies h' tree' t r obj = copies h tree t r obj - 1
  elsewhere : ∀ t' r' obj', t'.Outer → (t', r', obj') ≠ (t, r, obj) →
    copies h' tree' t' r' obj' = copies h tree t' r' obj'

namespace Indexed

theorem copies_of_mem (hs : Indexed s tree) (ht : t.Outer) (hn : .outer n ∈ inorder (tree t))
    (hr : rank (s.heap.key (.outer n)) = r) (obj : Address) :
    copies s.heap tree t r obj = copiesIn s.heap tree n obj := by
  unfold copies
  cases hfind : (inorder (tree t)).find? fun a ↦ rank (s.heap.key a) = r with
  | none =>
      have hne := List.find?_eq_none.mp hfind (.outer n) hn
      simp [hr] at hne
  | some a =>
      have hrank : rank (s.heap.key a) = r := by simpa using List.find?_some hfind
      obtain rfl := hs.distinct t ht a (List.mem_of_find?_eq_some hfind) _ hn (hrank.trans hr.symm)
      rfl

theorem copies_of_ne {h : Heap Item Key Tree} (hne : ∀ a ∈ inorder (tree t), rank (h.key a) ≠ r)
    (obj : Address) : copies h tree t r obj = 0 := by
  have hfind : (inorder (tree t)).find? (fun a ↦ rank (h.key a) = r) = none := by
    rw [List.find?_eq_none]
    intro a ha
    simpa using hne a ha
  rw [copies, hfind]

/-- The outer item that lists an object. -/
theorem copies_eq_succ_iff (hs : Indexed s tree) (ht : t.Outer) {k : ℕ} :
    copies s.heap tree t r obj = k + 1 ↔
      ∃ n, .outer n ∈ inorder (tree t) ∧ rank (s.heap.key (.outer n)) = r ∧
        copiesIn s.heap tree n obj = k + 1 := by
  constructor
  · intro hcopies
    by_cases hne : ∀ a ∈ inorder (tree t), rank (s.heap.key a) ≠ r
    · rw [copies_of_ne hne] at hcopies
      cases hcopies
    · push Not at hne
      obtain ⟨a, ha, hr⟩ := hne
      obtain ⟨n, -, rfl⟩ := hs.outer t ht a ha
      rw [hs.copies_of_mem ht ha hr] at hcopies
      exact ⟨n, ha, hr, hcopies⟩
  · rintro ⟨n, hn, hr, hcopies⟩
    rw [hs.copies_of_mem ht hn hr, hcopies]

/-- An object that an index lists has an item in one of its trees. -/
theorem copies_pos_iff (hs : Indexed s tree) (ht : t.Outer) :
    0 < copies s.heap tree t r obj ↔
      ∃ n, .outer n ∈ inorder (tree t) ∧ rank (s.heap.key (.outer n)) = r ∧
        ∃ a ∈ inorder (tree (.sub n)), s.heap.key a = .object obj := by
  constructor
  · intro hpos
    obtain ⟨k, hk⟩ := Nat.exists_eq_add_one_of_ne_zero hpos.ne'
    obtain ⟨n, hn, hr, hcount⟩ := (hs.copies_eq_succ_iff ht).mp hk
    have hlisted : 0 < copiesIn s.heap tree n obj := by omega
    rw [copiesIn, List.countP_pos_iff] at hlisted
    exact ⟨n, hn, hr, by simpa using hlisted⟩
  · rintro ⟨n, hn, hr, a, ha, hkey⟩
    rw [hs.copies_of_mem ht hn hr, copiesIn, List.countP_pos_iff]
    exact ⟨a, ha, by simpa using hkey⟩

/-- An object is listed as often as before if each outer item lists it as often as before. -/
theorem copies_congr (hs : Indexed s tree) (hs' : Indexed s' tree') (ht : t.Outer)
    (h : ∀ n k, .outer n ∈ inorder (tree' t) ∧ rank (s'.heap.key (.outer n)) = r ∧
        copiesIn s'.heap tree' n obj = k + 1 ↔
      .outer n ∈ inorder (tree t) ∧ rank (s.heap.key (.outer n)) = r ∧
        copiesIn s.heap tree n obj = k + 1) :
    copies s'.heap tree' t r obj = copies s.heap tree t r obj := by
  have hsucc : ∀ k, copies s'.heap tree' t r obj = k + 1 ↔
      copies s.heap tree t r obj = k + 1 := by
    intro k
    rw [hs'.copies_eq_succ_iff ht, hs.copies_eq_succ_iff ht]
    exact exists_congr fun n ↦ h n k
  cases hnow : copies s'.heap tree' t r obj with
  | zero =>
      cases hbefore : copies s.heap tree t r obj with
      | zero => rfl
      | succ k =>
          have hagain := (hsucc k).mpr hbefore
          rw [hnow] at hagain
          cases hagain
  | succ k => exact ((hsucc k).mp hnow).symm

/-- Nothing changes but how often one object is listed by one outer item. -/
theorem copies_elsewhere (hs : Indexed s tree) (hs' : Indexed s' tree')
    (hn : .outer n ∈ inorder (tree t)) (houter : ∀ b, b.Outer → tree' b = tree b)
    (hkeys : ∀ m, s'.heap.key (.outer m) = s.heap.key (.outer m))
    (hother : ∀ m, m ≠ n → ∀ o, copiesIn s'.heap tree' m o = copiesIn s.heap tree m o)
    (hhere : ∀ o, o ≠ obj → copiesIn s'.heap tree' n o = copiesIn s.heap tree n o)
    (b : Tree) (r : List ℕ) (o : Address) (hb : b.Outer)
    (hne : (b, r, o) ≠ (t, rank (s.heap.key (.outer n)), obj)) :
    copies s'.heap tree' b r o = copies s.heap tree b r o := by
  refine hs.copies_congr hs' hb fun m k ↦ ?_
  have hcount : .outer m ∈ inorder (tree b) → rank (s.heap.key (.outer m)) = r →
      copiesIn s'.heap tree' m o = copiesIn s.heap tree m o := by
    intro hm hr
    by_cases hmn : m = n
    · subst hmn
      obtain rfl := hs.forest.eq_of_mem hm hn
      apply hhere o
      rintro rfl
      exact hne (by rw [hr])
    · exact hother m hmn o
  rw [houter b hb, hkeys m]
  exact and_congr_right fun hm ↦ and_congr_right fun hr ↦ by rw [hcount hm hr]

/-- The item of an object that no index of its kind lists is on no tree. -/
theorem notMem_of_copies (hs : Indexed s tree) (hobj : item.object = some obj)
    (hcopies : ∀ t r, t.Outer → Kind t item → copies s.heap tree t r obj = 0) (b : Tree) :
    item ∉ inorder (tree b) := by
  have hnotOuter : ∀ n, item ≠ .outer n := by
    rintro n rfl
    cases hobj
  intro hmem
  cases b with
  | keywords index =>
      obtain ⟨n, -, hn⟩ := hs.outer (.keywords index) trivial item hmem
      exact hnotOuter n hn
  | types =>
      obtain ⟨n, -, hn⟩ := hs.outer .types trivial item hmem
      exact hnotOuter n hn
  | sub n =>
      obtain ⟨t, ht, hn, hkind⟩ := hs.hung n item hmem
      obtain ⟨obj', hobj', hkey⟩ := hs.inner n item hmem
      obtain rfl : obj = obj' := by simpa [hobj] using hobj'
      have hpos := (hs.copies_pos_iff ht).mpr ⟨n, hn, rfl, item, hmem, hkey⟩
      rw [hcopies t _ ht hkind] at hpos
      cases hpos

/-- An outer item to come is on no tree, and its tree is empty. -/
theorem fresh (hs : Indexed s tree) :
    (∀ b, .outer s.items ∉ inorder (tree b)) ∧ tree (.sub s.items) = .nil := by
  have hfresh : ∀ t, t.Outer → .outer s.items ∉ inorder (tree t) := by
    intro t ht hmem
    obtain ⟨n, hn, heq⟩ := hs.outer t ht _ hmem
    cases heq
    omega
  refine ⟨?_, ?_⟩
  · intro b hmem
    cases b with
    | keywords index => exact hfresh (.keywords index) trivial hmem
    | types => exact hfresh .types trivial hmem
    | sub n =>
        obtain ⟨obj, hobj, -⟩ := hs.inner n _ hmem
        cases hobj
  · rw [← inorder_eq_nil, List.eq_nil_iff_forall_not_mem]
    intro a ha
    obtain ⟨t, ht, hmem, -⟩ := hs.hung _ a ha
    exact hfresh t ht hmem

/-! ## Adding -/

/-- A new outer item, whose key is new, lists nothing. -/
theorem addOuter (hs : Indexed s tree) (ht : t.Outer) (hkey : Suits t key)
    (hnew : ∀ a ∈ inorder (tree t), rank (s.heap.key a) ≠ rank key)
    (hfuel : (tree t).numNodes < fuel) :
    ∃ s' tree', Objects.addOuter garbage fuel (some t) key s = some s' ∧ Indexed s' tree' ∧
      SameObjects s s' ∧ .outer s.items ∈ inorder (tree' t) ∧
      s'.heap.key (.outer s.items) = key ∧
      (∀ b, b ≠ t → tree' b = tree b) ∧ (tree' t).numNodes = (tree t).numNodes + 1 ∧
      (∀ b, ∀ a ∈ inorder (tree' b), a = .outer s.items ∨ a ∈ inorder (tree b)) ∧
      ∀ t' r obj, t'.Outer → copies s'.heap tree' t' r obj = copies s.heap tree t' r obj := by
  obtain ⟨hfresh, hnil⟩ := hs.fresh
  have hne : ∀ b, ∀ a ∈ inorder (tree b), a ≠ .outer s.items := by
    rintro b a ha rfl
    exact hfresh b ha
  -- the new item on no tree
  have hforest₁ : Forest Suits rank
      (setKey (s.heap.setRoot (.sub s.items) none) (.outer s.items) key) tree := by
    refine hs.forest.congr ?_ ?_
    · intro b a ha
      simp [setKey, Function.update_of_ne (hne b a ha)]
    · intro b
      by_cases hb : b = .sub s.items
      · subst hb
        have hroot := (hs.forest.represents (.sub s.items)).links
        rw [hnil] at hroot
        simpa [setKey] using hroot.symm
      · simp [setKey, hb]
  obtain ⟨h', t', hrun, hkey', -, hforest', hadded⟩ :=
    hforest₁.add (orders garbage) hfresh (by simpa [setKey] using hkey) hfuel
  have hkeys : ∀ a, a ≠ .outer s.items → h'.key a = s.heap.key a := by
    intro a ha
    rw [hkey']
    exact Function.update_of_ne ha _ _
  have hkeyNew : h'.key (.outer s.items) = key := by
    rw [hkey']
    exact Function.update_self _ _ _
  have hperm : (inorder t').Perm (.outer s.items :: inorder (tree t)) := by
    refine hadded.resolve_right ?_
    rintro ⟨-, y, hy, hrank⟩
    rw [← hkey', hkeys y (hne t y hy), hkeyNew] at hrank
    exact hnew y hy hrank
  have hmem : ∀ b a, a ∈ inorder (Function.update tree t t' b) ↔
      b = t ∧ a = .outer s.items ∨ a ∈ inorder (tree b) := by
    intro b a
    by_cases hb : b = t
    · subst hb
      rw [Function.update_self, hperm.mem_iff, List.mem_cons]
      simp
    · simp [hb]
  have hinner : ∀ m a, a ∈ inorder (Function.update tree t t' (.sub m)) →
      a ∈ inorder (tree (.sub m)) := by
    intro m a ha
    refine ((hmem _ a).mp ha).resolve_left ?_
    rintro ⟨rfl, -⟩
    exact ht
  have hs' : Indexed { s with heap := h', items := s.items + 1 } (Function.update tree t t') := by
    refine ⟨hforest', ?_, ?_, ?_, ?_⟩
    · intro b hb a ha
      rcases (hmem b a).mp ha with ⟨-, rfl⟩ | ha
      · exact ⟨s.items, Nat.lt_succ_self _, rfl⟩
      · obtain ⟨m, hm, rfl⟩ := hs.outer b hb a ha
        exact ⟨m, Nat.lt_succ_of_lt hm, rfl⟩
    · intro b hb a ha a' ha' hrank
      rcases (hmem b a).mp ha with ⟨rfl, rfl⟩ | hold
      · rcases (hmem b a').mp ha' with ⟨-, rfl⟩ | hold'
        · rfl
        · have hrank' : rank key = rank (s.heap.key a') := by
            simpa [hkeyNew, hkeys a' (hne b a' hold')] using hrank
          exact absurd hrank'.symm (hnew a' hold')
      · rcases (hmem b a').mp ha' with ⟨rfl, rfl⟩ | hold'
        · have hrank' : rank (s.heap.key a) = rank key := by
            simpa [hkeyNew, hkeys a (hne b a hold)] using hrank
          exact absurd hrank' (hnew a hold)
        · refine hs.distinct b hb a hold a' hold' ?_
          simpa [hkeys a (hne b a hold), hkeys a' (hne b a' hold')] using hrank
    · intro m a ha
      have ha := hinner m a ha
      obtain ⟨obj, hobj, hkeya⟩ := hs.inner m a ha
      exact ⟨obj, hobj, (hkeys a (hne _ a ha)).trans hkeya⟩
    · intro m a ha
      obtain ⟨b, hb, hm, hkind⟩ := hs.hung m a (hinner m a ha)
      exact ⟨b, hb, (hmem b _).mpr (.inr hm), hkind⟩
  refine ⟨{ s with heap := h', items := s.items + 1 }, Function.update tree t t', ?_, hs',
    ⟨rfl, rfl, rfl, rfl⟩, (hmem t _).mpr (.inl ⟨rfl, rfl⟩), hkeyNew, ?_, ?_, ?_, ?_⟩
  · simp [Objects.addOuter, hrun]
  · intro b hb
    exact Function.update_of_ne hb _ _
  · rw [Function.update_self, ← length_inorder, hperm.length_eq, List.length_cons, length_inorder]
  · intro b a ha
    exact ((hmem b a).mp ha).imp_left And.right
  · intro b r obj hb
    have hsub : ∀ m, Function.update tree t t' (.sub m) = tree (.sub m) := by
      intro m
      refine Function.update_of_ne ?_ _ _
      rintro rfl
      exact ht
    refine hs.copies_congr hs' hb fun m k ↦ ?_
    by_cases hm : m = s.items
    · subst hm
      have hempty : copiesIn h' (Function.update tree t t') s.items obj = 0 := by
        rw [copiesIn, hsub, hnil]
        rfl
      refine iff_of_false ?_ fun hbefore ↦ hfresh b hbefore.1
      rintro ⟨-, -, hcount⟩
      rw [hempty] at hcount
      cases hcount
    · have hne' : Item.outer m ≠ .outer s.items := by simpa using hm
      have hmem' : .outer m ∈ inorder (Function.update tree t t' b) ↔
          .outer m ∈ inorder (tree b) :=
        (hmem b _).trans (or_iff_right fun hnew ↦ hne' hnew.2)
      have hcount : copiesIn h' (Function.update tree t t') m obj = copiesIn s.heap tree m obj :=
        copiesIn_congr (by rw [hsub]) fun a ha ↦ hkeys a (hne _ a ha)
      rw [hmem', hkeys _ hne', hcount]

/-- An item of an object on no tree goes to the tree of an outer item. -/
theorem addInner (hs : Indexed s tree) (ht : t.Outer) (hn : .outer n ∈ inorder (tree t))
    (hitem : ∀ b, item ∉ inorder (tree b)) (hobj : item.object = some obj) (hkind : Kind t item)
    (hfuel : (tree (.sub n)).numNodes < fuel) :
    ∃ s' tree', Objects.addInner garbage fuel (.sub n) item obj s = some s' ∧ Indexed s' tree' ∧
      SameObjects s s' ∧ (∀ b, b ≠ .sub n → tree' b = tree b) ∧
      (tree' (.sub n)).numNodes ≤ (tree (.sub n)).numNodes + 1 ∧
      (∀ b, ∀ a ∈ inorder (tree' b), a = item ∨ a ∈ inorder (tree b)) ∧
      Gains s.heap tree s'.heap tree' t (rank (s.heap.key (.outer n))) obj := by
  have hne : ∀ b, ∀ a ∈ inorder (tree b), a ≠ item := by
    rintro b a ha rfl
    exact hitem b ha
  have hnotOuter : ∀ m, .outer m ≠ item := by
    rintro m rfl
    cases hobj
  have hforest₁ : Forest Suits rank (setKey s.heap item (.object obj)) tree := by
    refine hs.forest.congr ?_ fun _ ↦ rfl
    intro b a ha
    simp [setKey, Function.update_of_ne (hne b a ha)]
  obtain ⟨h', t', hrun, hkey', -, hforest', hadded⟩ :=
    hforest₁.add (orders garbage) (b := .sub n) hitem (by simp [setKey, Suits]) hfuel
  have hkeys : ∀ a, a ≠ item → h'.key a = s.heap.key a := by
    intro a ha
    rw [hkey']
    exact Function.update_of_ne ha _ _
  have hkeyItem : h'.key item = .object obj := by
    rw [hkey']
    exact Function.update_self _ _ _
  have hsame : ∀ b, b ≠ .sub n → Function.update tree (.sub n) t' b = tree b :=
    fun b hb ↦ Function.update_of_ne hb _ _
  have hmem' : ∀ a ∈ inorder t', a = item ∨ a ∈ inorder (tree (.sub n)) := by
    intro a ha
    rcases hadded with hperm | ⟨hperm, -⟩
    · exact List.mem_cons.mp (hperm.mem_iff.mp ha)
    · exact .inr (hperm.mem_iff.mp ha)
  have hmem : ∀ b, ∀ a ∈ inorder (Function.update tree (.sub n) t' b), a = item ∨
      a ∈ inorder (tree b) := by
    intro b a ha
    by_cases hb : b = .sub n
    · subst hb
      rw [Function.update_self] at ha
      exact hmem' a ha
    · rw [hsame b hb] at ha
      exact .inr ha
  have houterTree : ∀ b, b.Outer → Function.update tree (.sub n) t' b = tree b := by
    intro b hb
    refine hsame b ?_
    rintro rfl
    exact hb
  have hs' : Indexed { s with heap := h' } (Function.update tree (.sub n) t') := by
    refine ⟨hforest', ?_, ?_, ?_, ?_⟩
    · intro b hb a ha
      rw [houterTree b hb] at ha
      exact hs.outer b hb a ha
    · intro b hb a ha a' ha' hrank
      rw [houterTree b hb] at ha ha'
      refine hs.distinct b hb a ha a' ha' ?_
      simpa [hkeys a (hne b a ha), hkeys a' (hne b a' ha')] using hrank
    · intro m a ha
      rcases hmem _ a ha with rfl | hold
      · exact ⟨obj, hobj, hkeyItem⟩
      · obtain ⟨obj', hobj', hkeya⟩ := hs.inner m a hold
        exact ⟨obj', hobj', (hkeys a (hne _ a hold)).trans hkeya⟩
    · intro m a ha
      by_cases hm : m = n
      · subst hm
        refine ⟨t, ht, by rw [houterTree t ht]; exact hn, ?_⟩
        rcases hmem _ a ha with rfl | hold
        · exact hkind
        · obtain ⟨b, hb, hmb, hkinda⟩ := hs.hung m a hold
          rwa [hs.forest.eq_of_mem hn hmb]
      · rw [hsame (.sub m) (by simpa using hm)] at ha
        obtain ⟨b, hb, hmb, hkinda⟩ := hs.hung m a ha
        exact ⟨b, hb, by rw [houterTree b hb]; exact hmb, hkinda⟩
  refine ⟨{ s with heap := h' }, Function.update tree (.sub n) t', ?_, hs', ⟨rfl, rfl, rfl, rfl⟩,
    hsame, ?_, hmem, ?_⟩
  · simp [Objects.addInner, hrun]
  · rw [Function.update_self, ← length_inorder, ← length_inorder]
    rcases hadded with hperm | ⟨hperm, -⟩
    · rw [hperm.length_eq, List.length_cons]
    · rw [hperm.length_eq]
      exact Nat.le_succ _
  · have hcount : ∀ o, copiesIn h' (Function.update tree (.sub n) t') n o =
        (inorder t').countP fun a ↦ h'.key a = .object o := by
      intro o
      rw [copiesIn, Function.update_self]
    have hold : ∀ o, (inorder (tree (.sub n))).countP (fun a ↦ h'.key a = .object o) =
        copiesIn s.heap tree n o := by
      intro o
      refine List.countP_congr ?_
      intro a ha
      rw [hkeys a (hne _ a ha)]
    have hn' : .outer n ∈ inorder (Function.update tree (.sub n) t' t) := by
      rw [houterTree t ht]
      exact hn
    refine ⟨?_, ?_⟩
    · rw [hs.copies_of_mem ht hn rfl, hs'.copies_of_mem ht hn' (by rw [hkeys _ (hnotOuter n)]),
        hcount]
      rcases hadded with hperm | ⟨hperm, y, hy, hrank⟩
      · left
        rw [hperm.countP_eq, List.countP_cons, hold, hkeyItem]
        simp
      · right
        rw [hperm.countP_eq, hold]
        refine ⟨rfl, List.countP_pos_iff.mpr ⟨y, hy, ?_⟩⟩
        obtain ⟨obj', -, hkeyy⟩ := hs.inner n y hy
        rw [← hkey', hkeys y (hne _ y hy), hkeyItem, hkeyy] at hrank
        have hval : obj' = obj := by simpa [rank, Fin.val_inj] using hrank
        simp [hkeyy, hval]
    · refine hs.copies_elsewhere hs' hn houterTree (fun m ↦ hkeys _ (hnotOuter m)) ?_ ?_
      · intro m hm o
        refine copiesIn_congr (by rw [hsame (.sub m) (by simpa using hm)]) ?_
        exact fun a ha ↦ hkeys a (hne _ a ha)
      · intro o ho
        rw [hcount]
        rcases hadded with hperm | ⟨hperm, -⟩
        · rw [hperm.countP_eq, List.countP_cons, hold, hkeyItem]
          simp [ho.symm]
        · rw [hperm.countP_eq, hold]

/-- One turn of `objectKeywordTreeAdd`, or `objectTypeTreeAdd`. -/
theorem indexAdd (hs : Indexed s tree) (ht : t.Outer) (hkey : Suits t key)
    (hitem : ∀ b, item ∉ inorder (tree b)) (hobj : item.object = some obj) (hkind : Kind t item)
    (hfuel : ∀ b, (tree b).numNodes < fuel) :
    ∃ s' tree', Objects.indexAdd garbage fuel (some t) key item obj s = some s' ∧
      Indexed s' tree' ∧ SameObjects s s' ∧ Grows tree tree' ∧
      (∀ b, ∀ a ∈ inorder (tree' b), a = item ∨ a.object = none ∨ a ∈ inorder (tree b)) ∧
      Gains s.heap tree s'.heap tree' t (rank key) obj := by
  have hnotOuter : ∀ m, item ≠ .outer m := by
    rintro m rfl
    cases hobj
  rcases hs.forest.find (orders garbage) hkey (hfuel t).le with ⟨hfind, hnew⟩ | ⟨a, ha, hr, hfind⟩
  · obtain ⟨s₁, tree₁, hrun₁, hs₁, hsame₁, hn, hkeyn, hother₁, hsize₁, hitems₁, hcopies₁⟩ :=
      hs.addOuter garbage ht hkey hnew (hfuel t)
    have hitem₁ : ∀ b, item ∉ inorder (tree₁ b) := by
      intro b hmem
      exact (hitems₁ b item hmem).elim (hnotOuter _) (hitem b)
    have hsub : t ≠ .sub s.items := by
      rintro rfl
      exact ht
    have hfuel₁ : (tree₁ (.sub s.items)).numNodes < fuel := by
      rw [hother₁ _ hsub.symm]
      exact hfuel _
    obtain ⟨s₂, tree₂, hrun₂, hs₂, hsame₂, hother₂, hsize₂, hitems₂, hgains⟩ :=
      hs₁.addInner garbage ht hn hitem₁ hobj hkind hfuel₁
    rw [hkeyn] at hgains
    refine ⟨s₂, tree₂, ?_, hs₂, hsame₁.trans hsame₂, ?_, ?_, ?_⟩
    · simp [Objects.indexAdd, findIn, hfind, hrun₁, hrun₂]
    · intro b
      by_cases hb : b = .sub s.items
      · subst hb
        rwa [hother₁ _ hsub.symm] at hsize₂
      · rw [hother₂ b hb]
        by_cases hbt : b = t
        · rw [hbt]
          exact hsize₁.le
        · rw [hother₁ b hbt]
          exact Nat.le_succ _
    · intro b a ha
      rcases hitems₂ b a ha with rfl | ha
      · exact .inl rfl
      · rcases hitems₁ b a ha with rfl | ha
        · exact .inr (.inl rfl)
        · exact .inr (.inr ha)
    · refine ⟨?_, ?_⟩
      · rw [← hcopies₁ t _ obj ht]
        exact hgains.here
      · intro t' r' obj' ht' hne
        rw [hgains.elsewhere t' r' obj' ht' hne, hcopies₁ t' r' obj' ht']
  · obtain ⟨m, -, rfl⟩ := hs.outer t ht a ha
    obtain ⟨s', tree', hrun, hs', hsame, hother, hsize, hitems, hgains⟩ :=
      hs.addInner garbage ht ha hitem hobj hkind (hfuel _)
    refine ⟨s', tree', ?_, hs', hsame, ?_, ?_, hr ▸ hgains⟩
    · simp [Objects.indexAdd, findIn, hfind, Item.subtree, hrun]
    · intro b
      by_cases hb : b = .sub m
      · rw [hb]
        exact hsize
      · rw [hother b hb]
        exact Nat.le_succ _
    · intro b a ha
      exact (hitems b a ha).imp_right .inr

end Indexed

end HavokMud.Objects
