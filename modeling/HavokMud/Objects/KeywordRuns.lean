import HavokMud.Objects.Keywords

/-!
# Runs of the keyword indexes

Objects are read and extracted, put somewhere and taken away again.  Of these operations only what
they do to the keyword indexes is followed; `objectTypeTreeRemove` belongs to it, because it looks
into `objectKeywordTree`.
-/

namespace HavokMud.Objects

open BinaryTree SearchTree BTree

/-- What the operations of `object_data.c` do to the keyword indexes: `objectRead`, the functions
that put an object into a room or another object and take it away, and `objectExtract` of an object
that is nowhere.  The keyword index of a place may be NULL. -/
inductive Op where
  | read (obj : Address) (flag : ItemType) (words : List (Option Word))
  | put (index : Option KeywordTree) (obj : Address)
  | take (index : Option KeywordTree) (obj : Address)
  | extract (obj : Address)

section Runs

variable (garbage : Key → Key → ℤ) (fuel : ℕ)

def Op.run : Op → Indexes → Option Indexes
  | .read obj flag words, s =>
      objectKeywordTreeAdd garbage fuel (some .objects) obj (create obj flag words s)
  | .put index obj, s => objectKeywordTreeAdd garbage fuel index obj s
  | .take index obj, s => objectKeywordTreeRemove garbage fuel index obj s
  | .extract obj, s => objectExtract garbage fuel obj s

def runOps (ops : List Op) : Option Indexes :=
  ops.foldlM (fun s op ↦ op.run garbage fuel s) .empty

/-- The keys of the items of a tree under one key. -/
def pairsOf (h : Heap Item Key Tree) (outer : Item) : Option (List (Key × Key)) := do
  let sub ← outer.subtree
  let items ← itemsBelow h fuel (h.root sub)
  some (items.map fun item ↦ (h.key outer, h.key item))

/-- Every keyword of an index with every object under it. -/
def listing (s : Indexes) (index : KeywordTree) : Option (List (Key × Key)) := do
  let outer ← itemsBelow s.heap fuel (s.heap.root (.keywords index))
  let pairs ← outer.mapM (pairsOf fuel s.heap)
  some pairs.flatten

end Runs

/-- A listing has an object under a keyword, whose case does not matter. -/
def Lists (pairs : List (Key × Key)) (text : Word) (obj : Address) : Prop :=
  ∃ text' : Word, fold text'.1 = fold text.1 ∧ (.word text', .object obj) ∈ pairs

section Listing

variable {fuel : ℕ} {s : Indexes} {tree : Tree → BinaryTree Item}

theorem mapM_eq_some {α β : Type} {f : α → Option β} {g : α → β} {l : List α}
    (h : ∀ a ∈ l, f a = some (g a)) : l.mapM f = some (l.map g) := by
  induction l with
  | nil => rfl
  | cons a l ih =>
      rw [List.mapM_cons, h a List.mem_cons_self, ih fun a ha ↦ h a (List.mem_cons_of_mem _ ha)]
      rfl

/-- A listing has a pair if an item of the object is on the tree under the keyword. -/
theorem Indexed.listing (hs : Indexed s tree) (hfuel : ∀ b, (tree b).numNodes ≤ fuel)
    (index : KeywordTree) :
    ∃ pairs, listing fuel s index = some pairs ∧ ∀ text obj, Lists pairs text obj ↔
      0 < copies s.heap tree (.keywords index) (fold text.1) obj := by
  have houter : itemsBelow s.heap fuel (s.heap.root (.keywords index)) =
      some (inorder (tree (.keywords index))) :=
    itemsBelow_eq (hs.forest.represents _).links (hfuel _)
  have hinner : ∀ a ∈ inorder (tree (.keywords index)), pairsOf fuel s.heap a =
      some ((inorder (tree (a.subtree.getD .types))).map fun item ↦
        (s.heap.key a, s.heap.key item)) := by
    intro a ha
    obtain ⟨n, -, rfl⟩ := hs.outer (.keywords index) trivial a ha
    have hbelow : itemsBelow s.heap fuel (s.heap.root (.sub n)) = some (inorder (tree (.sub n))) :=
      itemsBelow_eq (hs.forest.represents _).links (hfuel _)
    simp [pairsOf, Item.subtree, hbelow]
  have hpairs : Objects.listing fuel s index = some ((inorder (tree (.keywords index))).map fun a ↦
      (inorder (tree (a.subtree.getD .types))).map fun item ↦
        (s.heap.key a, s.heap.key item)).flatten := by
    unfold Objects.listing
    rw [houter, Option.bind_eq_bind, Option.bind_some, mapM_eq_some hinner]
    rfl
  refine ⟨_, hpairs, ?_⟩
  intro text obj
  refine Iff.trans ?_ (hs.copies_pos_iff (t := .keywords index) trivial).symm
  unfold Lists
  simp only [List.mem_flatten, List.mem_map, exists_exists_and_eq_and, Prod.mk.injEq]
  constructor
  · rintro ⟨text', hfold, a, ha, item, hitem, hword, hobj⟩
    obtain ⟨n, -, rfl⟩ := hs.outer (.keywords index) trivial a ha
    refine ⟨n, ha, ?_, item, hitem, hobj⟩
    rw [hword]
    exact hfold
  · rintro ⟨n, hn, hrank, item, hitem, hobj⟩
    obtain ⟨text', hword⟩ := hs.forest.suits _ _ hn
    rw [hword] at hrank
    exact ⟨text', hrank, .outer n, hn, item, hitem, hword, hobj⟩

end Listing

/-! ## What should be listed -/

/-- The objects, their keywords and the keyword indexes that they are in. -/
structure Places where
  words : Address → List (Option Word)
  live : Finset Address
  placed : KeywordTree → Finset Address

namespace Places

def empty : Places where
  words _ := []
  live := ∅
  placed _ := ∅

def step (p : Places) : Op → Places
  | .read obj _ words =>
      { words := Function.update p.words obj words
        live := insert obj p.live
        placed := Function.update p.placed .objects (insert obj (p.placed .objects)) }
  | .put (some index) obj =>
      { p with placed := Function.update p.placed index (insert obj (p.placed index)) }
  | .take (some index) obj =>
      { p with placed := Function.update p.placed index ((p.placed index).erase obj) }
  | .extract obj =>
      { p with live := p.live.erase obj, placed := fun index ↦ (p.placed index).erase obj }
  | _ => p

/-- The places after a run. -/
def after (ops : List Op) : Places :=
  ops.foldl step empty

/-- An object that is read is new, and other operations are on live objects.  One that has keywords
is put into an index only while it is in none, and taken or extracted only from the one it is in. -/
def Guard (p : Places) : Op → Prop
  | .read obj _ _ => obj ∉ p.live
  | .put index obj => obj ∈ p.live ∧
      (folds (p.words obj) = [] ∨ index.isSome ∧ ∀ index', obj ∉ p.placed index')
  | .take index obj => obj ∈ p.live ∧
      (folds (p.words obj) = [] ∨ ∀ index', obj ∈ p.placed index' → index = some index')
  | .extract obj => obj ∈ p.live ∧
      (folds (p.words obj) = [] ∨ ∀ index', obj ∈ p.placed index' → index' = .objects)

/-- Every operation of a run meets its guard. -/
def Guarded (p : Places) : List Op → Prop
  | [] => True
  | op :: ops => p.Guard op ∧ Guarded (p.step op) ops

/-- The indexes list the objects that are in them. -/
structure Shown (p : Places) (s : Indexes) (tree : Tree → BinaryTree Item) : Prop where
  indexed : Indexed s tree
  words : s.words = p.words
  types : ∀ r obj, copies s.heap tree .types r obj = 0
  live : ∀ index, ∀ obj ∈ p.placed index, obj ∈ p.live
  notPlaced : ∀ index obj r, obj ∉ p.placed index → copies s.heap tree (.keywords index) r obj = 0
  count_le : ∀ index obj r,
    copies s.heap tree (.keywords index) r obj ≤ (folds (p.words obj)).count r
  listed : ∀ index, ∀ obj ∈ p.placed index, ∀ r ∈ folds (p.words obj),
    0 < copies s.heap tree (.keywords index) r obj

/-- How many items an operation can add to a tree. -/
def growth (p : Places) : Op → ℕ
  | .read _ _ words => words.length
  | .put _ obj => (p.words obj).length
  | _ => 0

section Steps

variable (garbage : Key → Key → ℤ) {fuel : ℕ} {p : Places} {s s' : Indexes}
  {tree tree' : Tree → BinaryTree Item}

/-- What is listed elsewhere stays shown. -/
theorem Shown.copies_eq {index index' : KeywordTree} {obj obj' : Address}
    (helse : SameElsewhere s.heap tree s'.heap tree' (.keywords index) obj) (r : List ℕ)
    (hne : obj' ≠ obj ∨ index' ≠ index) :
    copies s'.heap tree' (.keywords index') r obj' =
      copies s.heap tree (.keywords index') r obj' := by
  refine helse (.keywords index') r obj' trivial ?_
  rintro ⟨⟩
  simp at hne

/-- An object that is in no index is added to one. -/
theorem Shown.add (hshown : Shown p s tree) (index : KeywordTree) {obj : Address}
    (hlive : obj ∈ p.live) (hnone : ∀ index', obj ∉ p.placed index')
    (hfuel : ∀ b, (tree b).numNodes + (p.words obj).length ≤ fuel) :
    ∃ s' tree', objectKeywordTreeAdd garbage fuel (some index) obj s = some s' ∧
      Shown (p.step (.put (some index) obj)) s' tree' ∧
      ∀ b, (tree' b).numNodes ≤ (tree b).numNodes + (p.words obj).length := by
  rw [← hshown.words] at hfuel
  obtain ⟨s', tree', hrun, hs', hwords, -, -, hsize, hcopies, helse⟩ :=
    objectKeywordTreeAdd_spec garbage index hshown.indexed
      (fun index' r ↦ hshown.notPlaced index' obj r (hnone index')) hfuel
  rw [hshown.words] at hsize hcopies hwords
  refine ⟨s', tree', hrun, ?_, hsize⟩
  have hplaced : ∀ index' obj', obj' ∈ (p.step (.put (some index) obj)).placed index' ↔
      obj' = obj ∧ index' = index ∨ obj' ∈ p.placed index' := by
    intro index' obj'
    by_cases hindex : index' = index
    · subst hindex
      simp [step]
    · simp [step, hindex]
  refine ⟨hs', hwords, ?_, ?_, ?_, ?_, ?_⟩
  · intro r obj'
    rw [helse .types r obj' trivial (by simp)]
    exact hshown.types r obj'
  · intro index' obj' hobj'
    rcases (hplaced index' obj').mp hobj' with ⟨rfl, -⟩ | hold
    · exact hlive
    · exact hshown.live index' obj' hold
  · intro index' obj' r hobj'
    rw [hplaced, not_or, not_and_or] at hobj'
    rw [Shown.copies_eq helse r hobj'.1]
    exact hshown.notPlaced index' obj' r hobj'.2
  · intro index' obj' r
    by_cases hsame : obj' = obj ∧ index' = index
    · obtain ⟨rfl, rfl⟩ := hsame
      exact (hcopies r).1
    · rw [Shown.copies_eq helse r (not_and_or.mp hsame)]
      exact hshown.count_le index' obj' r
  · intro index' obj' hobj' r hr
    rcases (hplaced index' obj').mp hobj' with ⟨rfl, rfl⟩ | hold
    · exact (hcopies r).2 hr
    · have hne : obj' ≠ obj := by
        rintro rfl
        exact hnone index' hold
      rw [Shown.copies_eq helse r (.inl hne)]
      exact hshown.listed index' obj' hold r hr

/-- An object is removed from an index. -/
theorem Shown.remove (hshown : Shown p s tree) (index : KeywordTree) (obj : Address)
    (hfuel : ∀ b, (tree b).numNodes ≤ fuel) :
    ∃ s' tree', objectKeywordTreeRemove garbage fuel (some index) obj s = some s' ∧
      Shown (p.step (.take (some index) obj)) s' tree' ∧
      ∀ b, (tree' b).numNodes ≤ (tree b).numNodes := by
  obtain ⟨s', tree', hrun, hs', hwords, -, -, hsize, hcopies, helse⟩ :=
    objectKeywordTreeRemove_spec garbage index obj hshown.indexed hfuel
  rw [hshown.words] at hcopies hwords
  refine ⟨s', tree', hrun, ?_, hsize⟩
  have hplaced : ∀ index' obj', obj' ∈ (p.step (.take (some index) obj)).placed index' ↔
      ¬ (obj' = obj ∧ index' = index) ∧ obj' ∈ p.placed index' := by
    intro index' obj'
    by_cases hindex : index' = index
    · subst hindex
      simp [step]
    · simp [step, hindex]
  have hzero : ∀ r, copies s'.heap tree' (.keywords index) r obj = 0 := by
    intro r
    have hle := hshown.count_le index obj r
    rw [hcopies r]
    omega
  have hle : ∀ index' obj' r, copies s'.heap tree' (.keywords index') r obj' ≤
      copies s.heap tree (.keywords index') r obj' := by
    intro index' obj' r
    by_cases hsame : obj' = obj ∧ index' = index
    · obtain ⟨rfl, rfl⟩ := hsame
      rw [hzero]
      exact Nat.zero_le _
    · exact (Shown.copies_eq helse r (not_and_or.mp hsame)).le
  refine ⟨hs', hwords, ?_, ?_, ?_, ?_, ?_⟩
  · intro r obj'
    rw [helse .types r obj' trivial (by simp)]
    exact hshown.types r obj'
  · intro index' obj' hobj'
    exact hshown.live index' obj' ((hplaced index' obj').mp hobj').2
  · intro index' obj' r hobj'
    rw [hplaced, not_and_or, not_not] at hobj'
    rcases hobj' with ⟨rfl, rfl⟩ | hobj'
    · exact hzero r
    · exact Nat.le_zero.mp ((hle index' obj' r).trans (hshown.notPlaced index' obj' r hobj').le)
  · intro index' obj' r
    exact (hle index' obj' r).trans (hshown.count_le index' obj' r)
  · intro index' obj' hobj' r hr
    obtain ⟨hne, hold⟩ := (hplaced index' obj').mp hobj'
    rw [Shown.copies_eq helse r (not_and_or.mp hne)]
    exact hshown.listed index' obj' hold r hr

/-- Of an object that no index lists everything may change but that it is listed. -/
theorem Shown.move {p' : Places} (hshown : Shown p s tree) (obj : Address)
    (hzero : ∀ index r, copies s.heap tree (.keywords index) r obj = 0)
    (hwords : ∀ obj', obj' ≠ obj → p'.words obj' = p.words obj')
    (hempty : ∀ index, obj ∈ p'.placed index → folds (p'.words obj) = [])
    (hlive : ∀ index, ∀ obj' ∈ p'.placed index, obj' ∈ p'.live)
    (hplaced : ∀ index obj', obj' ≠ obj → (obj' ∈ p'.placed index ↔ obj' ∈ p.placed index))
    (hs' : Indexed s' tree) (hwords' : s'.words = p'.words)
    (hcopies : ∀ t r obj', t.Outer →
      copies s'.heap tree t r obj' = copies s.heap tree t r obj') : Shown p' s' tree := by
  refine ⟨hs', hwords', ?_, hlive, ?_, ?_, ?_⟩
  · intro r obj'
    rw [hcopies .types r obj' trivial]
    exact hshown.types r obj'
  · intro index obj' r hobj'
    rw [hcopies (.keywords index) r obj' trivial]
    by_cases hne : obj' = obj
    · rw [hne, hzero]
    · exact hshown.notPlaced index obj' r (by rwa [← hplaced index obj' hne])
  · intro index obj' r
    rw [hcopies (.keywords index) r obj' trivial]
    by_cases hne : obj' = obj
    · rw [hne, hzero]
      exact Nat.zero_le _
    · rw [hwords obj' hne]
      exact hshown.count_le index obj' r
  · intro index obj' hobj' r hr
    by_cases hne : obj' = obj
    · subst hne
      rw [hempty index hobj'] at hr
      cases hr
    · rw [hcopies (.keywords index) r obj' trivial]
      rw [hwords obj' hne] at hr
      exact hshown.listed index obj' ((hplaced index obj' hne).mp hobj') r hr

theorem Shown.copies_of_folds_nil (hshown : Shown p s tree) {obj : Address}
    (hwords : folds (p.words obj) = []) (index : KeywordTree) (r : List ℕ) :
    copies s.heap tree (.keywords index) r obj = 0 := by
  have hle := hshown.count_le index obj r
  rw [hwords] at hle
  simpa using hle

/-- One operation. -/
theorem Shown.step (hshown : Shown p s tree) {op : Op} (hguard : p.Guard op)
    (hfuel : ∀ b, (tree b).numNodes + p.growth op ≤ fuel) :
    ∃ s' tree', op.run garbage fuel s = some s' ∧ Shown (p.step op) s' tree' ∧
      ∀ b, (tree' b).numNodes ≤ (tree b).numNodes + p.growth op := by
  match op with
  | .read obj flag words =>
      have hnone : ∀ index, obj ∉ p.placed index := fun index hmem ↦
        hguard (hshown.live index obj hmem)
      obtain ⟨hs₁, hcopies⟩ := create_spec hshown.indexed (hshown.types · obj) flag words
      have hshown₁ : Shown ⟨Function.update p.words obj words, insert obj p.live, p.placed⟩
          (create obj flag words s) tree := by
        refine hshown.move obj (fun index r ↦ hshown.notPlaced index obj r (hnone index)) ?_ ?_
          ?_ (fun _ _ _ ↦ Iff.rfl) hs₁ ?_ hcopies
        · intro obj' hne
          exact Function.update_of_ne hne _ _
        · intro index hmem
          exact absurd hmem (hnone index)
        · intro index obj' hmem
          exact Finset.mem_insert_of_mem (hshown.live index obj' hmem)
        · rw [← hshown.words]
          rfl
      have hfuel₁ : ∀ b, (tree b).numNodes +
          (Function.update p.words obj words obj).length ≤ fuel := by
        rw [Function.update_self]
        exact hfuel
      obtain ⟨s', tree', hrun, hshown', hsize⟩ :=
        hshown₁.add garbage .objects (Finset.mem_insert_self _ _) hnone hfuel₁
      refine ⟨s', tree', hrun, hshown', ?_⟩
      simpa [growth] using hsize
  | .put index obj =>
      obtain ⟨hlive, hwords | ⟨hsome, hnone⟩⟩ := hguard
      · refine ⟨{ s with keywordItem := Function.update s.keywordItem obj true }, tree, ?_, ?_,
          fun b ↦ Nat.le_add_right _ _⟩
        · have hwords' : folds (s.words obj) = [] := by
            rw [hshown.words]
            exact hwords
          simp only [Op.run, objectKeywordTreeAdd]
          exact eachWord_of_folds_nil _ hwords' 0 _
        · refine hshown.move obj (hshown.copies_of_folds_nil hwords) ?_ ?_ ?_ ?_
            (hshown.indexed.congr rfl rfl) ?_ fun _ _ _ _ ↦ rfl
          · intro obj' _
            cases index <;> rfl
          · intro _ _
            cases index <;> exact hwords
          · intro index' obj' hmem
            cases index with
            | none => exact hshown.live index' obj' hmem
            | some index =>
                by_cases hindex : index' = index
                · subst hindex
                  simp only [Places.step, Function.update_self, Finset.mem_insert] at hmem
                  rcases hmem with rfl | hmem
                  · exact hlive
                  · exact hshown.live index' obj' hmem
                · simp only [Places.step, Function.update_of_ne hindex] at hmem
                  exact hshown.live index' obj' hmem
          · intro index' obj' hne
            cases index with
            | none => exact Iff.rfl
            | some index =>
                by_cases hindex : index' = index
                · subst hindex
                  simp [Places.step, hne]
                · simp [Places.step, hindex]
          · rw [hshown.words]
            cases index <;> rfl
      · obtain ⟨index, rfl⟩ := Option.isSome_iff_exists.mp hsome
        exact hshown.add garbage index hlive hnone hfuel
  | .take (some index) obj => exact hshown.remove garbage index obj hfuel
  | .take none obj =>
      refine ⟨{ s with keywordItem := Function.update s.keywordItem obj false }, tree, ?_, ?_,
        fun b ↦ le_rfl⟩
      · have hrun : eachWord (fun text _ ↦ indexRemove garbage fuel none none (.word text) obj)
            (s.words obj) 0 s = some s := eachWord_indexRemove_none garbage (s.words obj) 0 s
        simp only [Op.run, objectKeywordTreeRemove, Option.map_none, hrun, Option.bind_eq_bind,
          Option.bind_some]
      · exact ⟨hshown.indexed.congr rfl rfl, hshown.words, hshown.types, hshown.live,
          hshown.notPlaced, hshown.count_le, hshown.listed⟩
  | .extract obj =>
      obtain ⟨hlive, hwords⟩ := hguard
      obtain ⟨s₁, tree₁, hrun₁, hshown₁, hsize₁⟩ := hshown.remove garbage .objects obj hfuel
      have hnone : folds (p.words obj) = [] ∨
          ∀ index, obj ∉ (p.step (.take (some .objects) obj)).placed index := by
        refine hwords.imp_right ?_
        intro hobjects index hmem
        by_cases hindex : index = .objects
        · subst hindex
          simp [Places.step] at hmem
        · simp only [Places.step, Function.update_of_ne hindex] at hmem
          exact hindex (hobjects index hmem)
      have hzero : ∀ r, copies s₁.heap tree₁ (.keywords .objects) r obj = 0 :=
        fun r ↦ hshown₁.notPlaced .objects obj r (by simp [Places.step])
      have htypes : objectTypeTreeRemove garbage fuel obj s₁ = some s₁ :=
        hshown₁.indexed.indexRemove_absent garbage (t := .keywords .objects) trivial (some .types) _
          hzero fun b ↦ (hsize₁ b).trans (hfuel b)
      refine ⟨objectFree obj s₁, tree₁, ?_, ?_, hsize₁⟩
      · simp [Op.run, objectExtract, hrun₁, htypes]
      · refine hshown₁.move obj ?_ (fun _ _ ↦ rfl) ?_ ?_ ?_
          (hshown₁.indexed.congr rfl rfl) hshown₁.words fun _ _ _ _ ↦ rfl
        · intro index r
          rcases hnone with hwords | hnone
          · exact hshown₁.copies_of_folds_nil hwords index r
          · exact hshown₁.notPlaced index obj r (hnone index)
        · intro index hmem
          simp [Places.step] at hmem
        · intro index obj' hmem
          obtain ⟨hne, hmem⟩ := Finset.mem_erase.mp hmem
          exact Finset.mem_erase.mpr ⟨hne, hshown.live index obj' hmem⟩
        · intro index obj' hne
          by_cases hindex : index = .objects
          · subst hindex
            simp [Places.step, hne]
          · simp [Places.step, hne, hindex]

end Steps

/-! ## Whole runs -/

/-- How many items a run can add to a tree. -/
def growthAll (p : Places) : List Op → ℕ
  | [] => 0
  | op :: ops => p.growth op + growthAll (p.step op) ops

/-- The object is in the index, and this is one of its keywords. -/
def Has (p : Places) (index : KeywordTree) (text : Word) (obj : Address) : Prop :=
  obj ∈ p.placed index ∧ fold text.1 ∈ folds (p.words obj)

variable {p : Places} {s : Indexes} {tree : Tree → BinaryTree Item}

/-- A run keeps what is shown. -/
theorem Shown.run (garbage : Key → Key → ℤ) {fuel : ℕ} {ops : List Op} (hshown : Shown p s tree)
    (hguarded : p.Guarded ops) (hfuel : ∀ b, (tree b).numNodes + p.growthAll ops ≤ fuel) :
    ∃ s' tree', ops.foldlM (fun s op ↦ op.run garbage fuel s) s = some s' ∧
      Shown (ops.foldl Places.step p) s' tree' ∧
      ∀ b, (tree' b).numNodes ≤ (tree b).numNodes + p.growthAll ops := by
  induction ops generalizing p s tree with
  | nil => exact ⟨s, tree, rfl, hshown, fun b ↦ Nat.le_add_right _ _⟩
  | cons op ops ih =>
      obtain ⟨hguard, hrest⟩ := hguarded
      have hfuel₁ : ∀ b, (tree b).numNodes + p.growth op ≤ fuel := by
        intro b
        have hle := hfuel b
        simp only [growthAll] at hle
        omega
      obtain ⟨s₁, tree₁, hrun₁, hshown₁, hsize₁⟩ := hshown.step garbage hguard hfuel₁
      have hfuel₂ : ∀ b, (tree₁ b).numNodes + (p.step op).growthAll ops ≤ fuel := by
        intro b
        have hle := hfuel b
        have hsize := hsize₁ b
        simp only [growthAll] at hle
        omega
      obtain ⟨s', tree', hrun, hshown', hsize'⟩ := ih hshown₁ hrest hfuel₂
      refine ⟨s', tree', ?_, hshown', ?_⟩
      · rw [List.foldlM_cons, hrun₁]
        exact hrun
      · intro b
        have hsize := hsize₁ b
        have hle := hsize' b
        simp only [growthAll]
        omega

/-- The listing of an index has every pair that the index has. -/
theorem Shown.listing (hshown : Shown p s tree) {fuel : ℕ}
    (hfuel : ∀ b, (tree b).numNodes ≤ fuel) (index : KeywordTree) :
    ∃ pairs, listing fuel s index = some pairs ∧
      ∀ text obj, Lists pairs text obj ↔ p.Has index text obj := by
  have hs := hshown.indexed
  obtain ⟨pairs, hpairs, hmem⟩ := hs.listing hfuel index
  refine ⟨pairs, hpairs, fun text obj ↦ (hmem text obj).trans ?_⟩
  constructor
  · intro hpos
    by_contra hnone
    have hzero : copies s.heap tree (.keywords index) (fold text.1) obj = 0 := by
      rcases not_and_or.mp hnone with hplaced | hword
      · exact hshown.notPlaced index obj _ hplaced
      · have hle := hshown.count_le index obj (fold text.1)
        rw [List.count_eq_zero_of_not_mem hword] at hle
        exact Nat.le_zero.mp hle
    omega
  · rintro ⟨hplaced, hword⟩
    exact hshown.listed index obj hplaced _ hword

end Places

/-! ## What the runs list -/

section Listed

variable (garbage : Key → Key → ℤ)

end Listed

def sword : Word :=
  ⟨[115, 119, 111, 114, 100], by decide⟩

end HavokMud.Objects
