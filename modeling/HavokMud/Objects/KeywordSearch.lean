import HavokMud.BTree.Forest
import HavokMud.BTree.PartialKeys
import HavokMud.Objects.Indexes

/-!
# The keyword search

`objectKeywordFindNext` intersects the trees of the search words: it walks the tree of the first
word and looks each object up in the trees of the others.  To go on from an object it reads the item
at an offset in the object, though what stands there is a pointer to the items.  What it finds then
depends on how the object is laid out, so the search is modelled over memory.

The layout is that of a machine with eight bytes to a pointer and four to an `int`.
-/

namespace HavokMud.Objects.KeywordSearch

open BinaryTree SearchTree BTree

variable {κ : Type}

/-- The words of eight bytes at the addresses. -/
abbrev Memory := ℕ → ℕ

/-- NULL is zero. -/
def pointer (n : ℕ) : Option ℕ :=
  if n = 0 then none else some n

/-- Memory read as items and trees, wherever they are taken to be.  What a key leads to is read by
`read`. -/
def graph (read : ℕ → κ) (M : Memory) : Heap ℕ (Option κ) ℕ where
  left p := pointer (M p)
  right p := pointer (M (p + 8))
  parent p := pointer (M (p + 16))
  key p := if M (p + 32) = 0 then none else some (read (M (M (p + 32))))
  btree p := pointer (M (p + 40))
  visited p := M (p + 48) % 2 ^ 32
  root t := pointer (M (t + 24))

/-- `item->visited`, an `int`. -/
def visited (M : Memory) (p : ℕ) : ℕ :=
  M (p + 48) % 2 ^ 32

def setVisited (M : Memory) (p n : ℕ) : Memory :=
  Function.update M (p + 48) (M (p + 48) / 2 ^ 32 * 2 ^ 32 + n % 2 ^ 32)

/-- The callbacks do not compare with NULL. -/
def keyCompare (compare : κ → κ → ℤ) : Option κ → Option κ → ℤ
  | some l, some r => compare l r
  | _, _ => 0

/-! ## Trees in memory -/

section Trees

variable (fuel : ℕ)

/-- `BalancedBTreeFind`. -/
def balancedBTreeFind (compare : κ → κ → ℤ) (read : ℕ → κ) (tree : ℕ) (key : κ) (M : Memory) :
    Option (Option ℕ) :=
  match pointer tree with
  | none => some none
  | some tree => BTree.balancedBTreeFind (keyCompare compare) (graph read M) fuel tree (some key)

/-- `BalancedBTreeUnvisit`. -/
def balancedBTreeUnvisit : ℕ → Option ℕ → Memory → Option Memory
  | _, none, M => some M
  | 0, some _, _ => none
  | fuel + 1, some p, M => do
      let M := setVisited M p 0
      let M ← balancedBTreeUnvisit fuel (pointer (M p)) M
      balancedBTreeUnvisit fuel (pointer (M (p + 8))) M

def balancedBTreeFindLeast (root : ℕ) (M : Memory) : Option (Option ℕ) :=
  BTree.balancedBTreeFindLeast (graph id M) fuel (pointer root)

/-- One turn of the loop of `BalancedBTreeFindNext`. -/
def visitNext (item : ℕ) (M : Memory) : Option (Memory × Option ℕ) :=
  let M := setVisited M item (visited M item + 1)
  let right := M (item + 8)
  if right ≠ 0 ∧ visited M right = 0 then
    (balancedBTreeFindLeast fuel right M).map fun least ↦ (M, least)
  else some (M, pointer (M (item + 16)))

/-- The loop of `BalancedBTreeFindNext`. -/
def findNextLoop : ℕ → ℕ → Memory → Option (Memory × Option ℕ)
  | 0, _, _ => none
  | turns + 1, item, M => do
      let (M, next) ← visitNext fuel item M
      match next with
      | none => some (M, none)
      | some next =>
          if visited M next = 0 then some (M, some next) else findNextLoop turns next M

def balancedBTreeFindNext (btree item : ℕ) (M : Memory) : Option (Memory × Option ℕ) :=
  if btree = 0 ∨ item = 0 then some (M, none) else findNextLoop fuel fuel item M

end Trees

/-! ## The search -/

/-- What the search reads of a `Keywords_t`. -/
structure Keywords where
  words : List Word
  partialMatch : Bool

/-- `KEYWORD_ITEM_OFFSET`.  Three links, of three pointers each, the index and the item of the type
stand before `keywordItem`, and `containItem` and `contentItem` after it. -/
def keywordItemOffset : ℕ := 3 * 24 + 8 + 56

section Search

variable (fuel : ℕ) (text : ℕ → Word)

/-- The tree of a word. -/
def findWord (tree : ℕ) (key : Keywords) (word : Word) (M : Memory) : Option (Option ℕ) := do
  let compare (l r : Word) : ℤ :=
    if key.partialMatch then keyComparePartialString l.1 r.1 else keyCompareString l.1 r.1
  let item ← balancedBTreeFind fuel compare text tree word M
  some (item.map fun item ↦ M (item + 24))

/-- `BalancedBTreeFind( treeB, &obj )`. -/
def findObject (treeB obj : ℕ) (M : Memory) : Option (Option ℕ) :=
  balancedBTreeFind fuel (fun l r : ℕ ↦ keyComparePointer l r) id treeB obj M

/-- The next item of the tree of the first word: the least one, or the one after the item that is
taken to be in the object. -/
def nextItem (offset treeA obj : ℕ) (M : Memory) : Option (Memory × Option ℕ) :=
  if obj = 0 then do
    let treeA ← pointer treeA
    let M ← balancedBTreeUnvisit fuel (pointer (M (treeA + 24))) M
    let least ← balancedBTreeFindLeast fuel (M (treeA + 24)) M
    some (M, least)
  else balancedBTreeFindNext fuel treeA (obj + offset) M

/-- The loop of `objectKeywordFindNext`, with the object it returns. -/
def keywordLoop (tree offset : ℕ) (key : Keywords) :
    ℕ → ℕ → ℕ → ℕ → Memory → Option (Memory × ℕ)
  | 0, _, _, _, _ => none
  | turns + 1, i, treeA, obj, M =>
      match key.words[i]? with
      | none => some (M, obj)
      | some word =>
          if i = 0 then do
            let found ← if treeA = 0 then findWord fuel text tree key word M else some (some treeA)
            match found with
            | none => some (M, 0)
            | some treeA => do
                let (M, objItemA) ← nextItem fuel offset treeA obj M
                match objItemA with
                | none => some (M, 0)
                | some objItemA => keywordLoop tree offset key turns 1 treeA (M (objItemA + 24)) M
          else do
            match ← findWord fuel text tree key word M with
            -- this object is useless, try again with the next one
            | none => keywordLoop tree offset key turns 0 treeA obj M
            | some treeB => do
                match ← findObject fuel treeB obj M with
                | none => keywordLoop tree offset key turns 0 treeA obj M
                | some _ => keywordLoop tree offset key turns (i + 1) treeA obj M

def objectKeywordFindNext (tree offset : ℕ) (key : Keywords) (lastobj : ℕ) (M : Memory) :
    Option (Memory × ℕ) :=
  keywordLoop fuel text tree offset key fuel 0 0 lastobj M

def objectKeywordFindFirst (tree : ℕ) (key : Keywords) (M : Memory) : Option (Memory × ℕ) :=
  objectKeywordFindNext fuel text tree 0 key 0 M

/-- The objects from one on that the calls of `objectKeywordFindNext` return, until one returns
NULL. -/
def objectsFrom (tree : ℕ) (key : Keywords) : ℕ → ℕ → Memory → Option (List ℕ)
  | 0, _, _ => none
  | turns + 1, obj, M =>
      if obj = 0 then some []
      else do
        let (M, next) ← objectKeywordFindNext fuel text tree keywordItemOffset key obj M
        let rest ← objectsFrom tree key turns next M
        some (obj :: rest)

/-- `objectKeywordFindFirst`, and `objectKeywordFindNext` as long as it returns an object. -/
def objectsWithKeywords (tree : ℕ) (key : Keywords) (M : Memory) : Option (List ℕ) := do
  let (M, first) ← objectKeywordFindFirst fuel text tree key M
  objectsFrom fuel text tree key fuel first M

end Search

/-! ## Keyword trees -/

/-- A keyword tree: the items of the words with their own trees, and the items of the objects in
them. -/
structure Index where
  tree : ℕ
  outer : BinaryTree ℕ
  word : ℕ → Word
  sub : ℕ → ℕ
  inner : ℕ → BinaryTree ℕ
  object : ℕ → ℕ

namespace Index

/-- The items of all objects. -/
def innerItems (d : Index) : List ℕ :=
  (inorder d.outer).flatMap fun p ↦ inorder (d.inner p)

/-- The tree holds the object under the word. -/
def Lists (d : Index) (word : Word) (obj : ℕ) : Prop :=
  ∃ p ∈ inorder d.outer, fold (d.word p).1 = fold word.1 ∧
    ∃ q ∈ inorder (d.inner p), d.object q = obj

/-- The object has all the words. -/
def Matches (d : Index) (words : List Word) (obj : ℕ) : Prop :=
  ∀ word ∈ words, d.Lists word obj

/-- The words of memory that make up the tree, but for the counts. -/
def reads (d : Index) (M : Memory) : List ℕ :=
  (d.tree + 24) ::
    ((inorder d.outer).flatMap fun p ↦
      [p, p + 8, p + 16, p + 24, p + 32, M (p + 32), d.sub p + 24]) ++
    d.innerItems.flatMap fun q ↦ [q, q + 8, q + 16, q + 24, q + 32, M (q + 32)]

/-- The counts and the objects are apart from the tree and from one another. -/
structure Apart (d : Index) (M : Memory) : Prop where
  counts : ∀ q ∈ d.innerItems, q + 48 ∉ d.reads M
  objects : ∀ q ∈ d.innerItems, ∀ x ∈ d.reads M, x < d.object q ∨ d.object q + 192 ≤ x
  both : ∀ q ∈ d.innerItems, ∀ q' ∈ d.innerItems,
    q + 48 < d.object q' ∨ d.object q' + 192 ≤ q + 48
  each : ∀ q ∈ d.innerItems, ∀ q' ∈ d.innerItems, d.object q ≠ d.object q' →
    d.object q + 192 ≤ d.object q' ∨ d.object q' + 192 ≤ d.object q

/-- The memory holds the tree.  Nothing in the source sets `containItem` or `contentItem`. -/
structure Holds (d : Index) (text : ℕ → Word) (M : Memory) : Prop where
  tree : d.tree ≠ 0
  outer : Represents (graph text M) d.tree d.outer
  byWord : Sorted (fun p ↦ fold (d.word p).1) d.outer
  words : ∀ p ∈ inorder d.outer, M (p + 32) ≠ 0 ∧ text (M (M (p + 32))) = d.word p
  subs : ∀ p ∈ inorder d.outer, M (p + 24) = d.sub p ∧ d.sub p ≠ 0
  inner : ∀ p ∈ inorder d.outer, Represents (graph id M) (d.sub p) (d.inner p)
  byAddress : ∀ p ∈ inorder d.outer, Sorted d.object (d.inner p)
  keys : ∀ q ∈ d.innerItems, M (q + 32) ≠ 0 ∧ M (M (q + 32)) = d.object q
  objects : ∀ q ∈ d.innerItems, M (q + 24) = d.object q ∧ 0 < d.object q ∧ d.object q < 2 ^ 63
  containItem : ∀ q ∈ d.innerItems, M (d.object q + 144) = 0
  contentItem : ∀ q ∈ d.innerItems, M (d.object q + 152) = 0
  apart : d.Apart M

end Index

/-! ## Searches in a keyword tree -/

@[simp]
theorem pointer_eq_none {n : ℕ} : pointer n = none ↔ n = 0 := by
  simp [pointer]

@[simp]
theorem pointer_eq_some {n a : ℕ} : pointer n = some a ↔ n ≠ 0 ∧ n = a := by
  by_cases hn : n = 0 <;> simp [pointer, hn]

namespace Index.Holds

variable {d : Index} {text : ℕ → Word} {M : Memory} {p q fuel : ℕ}

theorem mem_innerItems (hp : p ∈ inorder d.outer) (hq : q ∈ inorder (d.inner p)) :
    q ∈ d.innerItems :=
  List.mem_flatMap.mpr ⟨p, hp, hq⟩

/-- `BalancedBTreeFind` finds the tree of a word, if it has one. -/
theorem findWord (h : d.Holds text M) {key : Keywords} (hkey : key.partialMatch = false)
    (hfuel : d.outer.numNodes ≤ fuel) (word : Word) :
    (∃ p ∈ inorder d.outer, fold (d.word p).1 = fold word.1 ∧
        KeywordSearch.findWord fuel text d.tree key word M = some (some (d.sub p))) ∨
      (∀ p ∈ inorder d.outer, fold (d.word p).1 ≠ fold word.1) ∧
        KeywordSearch.findWord fuel text d.tree key word M = some none := by
  have hprobe : ∀ p ∈ inorder d.outer,
      probe (keyCompare fun l r : Word ↦ keyCompareString l.1 r.1) (graph text M) (some word) p =
        keyCompareString word.1 (d.word p).1 := by
    intro p hp
    obtain ⟨hcell, htext⟩ := h.words p hp
    simp [probe, graph, hcell, htext, keyCompare]
  have hagrees : Agrees (probe (keyCompare fun l r : Word ↦ keyCompareString l.1 r.1)
      (graph text M) (some word)) (fun p ↦ fold (d.word p).1) (fold word.1) d.outer := by
    refine ⟨fun p hp ↦ ?_, fun p hp ↦ ?_⟩
    · rw [hprobe p hp]
      exact keyCompareString_neg_iff word.2 (d.word p).2
    · rw [hprobe p hp]
      exact keyCompareString_pos_iff word.2 (d.word p).2
  have htree : pointer d.tree = some d.tree := pointer_eq_some.mpr ⟨h.tree, rfl⟩
  rcases find_of_agrees h.outer hfuel h.byWord.arranged hagrees with
    ⟨hrun, hnone⟩ | ⟨p, hp, hword, hrun⟩
  · refine .inr ⟨hnone, ?_⟩
    simp [KeywordSearch.findWord, KeywordSearch.balancedBTreeFind, htree, hkey, hrun]
  · refine .inl ⟨p, hp, hword, ?_⟩
    simp [KeywordSearch.findWord, KeywordSearch.balancedBTreeFind, htree, hkey, hrun,
      (h.subs p hp).1]

/-- `BalancedBTreeFind` finds the object in the tree of a word, if it is there. -/
theorem findObject (h : d.Holds text M) (hp : p ∈ inorder d.outer)
    (hfuel : (d.inner p).numNodes ≤ fuel) {obj : ℕ} (hobj : obj < 2 ^ 63) :
    (∃ q ∈ inorder (d.inner p), d.object q = obj ∧
        KeywordSearch.findObject fuel (d.sub p) obj M = some (some q)) ∨
      (∀ q ∈ inorder (d.inner p), d.object q ≠ obj) ∧
        KeywordSearch.findObject fuel (d.sub p) obj M = some none := by
  have hprobe : ∀ q ∈ inorder (d.inner p),
      probe (keyCompare fun l r : ℕ ↦ keyComparePointer l r) (graph id M) (some obj) q =
        keyComparePointer obj (d.object q) := by
    intro q hq
    obtain ⟨hcell, hkey⟩ := h.keys q (mem_innerItems hp hq)
    simp [probe, graph, hcell, hkey, keyCompare]
  have hagrees : Agrees (probe (keyCompare fun l r : ℕ ↦ keyComparePointer l r)
      (graph id M) (some obj)) d.object obj (d.inner p) := by
    refine ⟨fun q hq ↦ ?_, fun q hq ↦ ?_⟩
    · obtain ⟨-, -, hlt⟩ := h.objects q (mem_innerItems hp hq)
      rw [hprobe q hq, keyComparePointer_neg_iff (by omega) (by omega) (by omega) (by omega)]
      omega
    · obtain ⟨-, -, hlt⟩ := h.objects q (mem_innerItems hp hq)
      rw [hprobe q hq, keyComparePointer_pos_iff (by omega) (by omega) (by omega) (by omega)]
      omega
  have hsub : pointer (d.sub p) = some (d.sub p) :=
    pointer_eq_some.mpr ⟨(h.subs p hp).2, rfl⟩
  have hfound : KeywordSearch.findObject fuel (d.sub p) obj M =
      BTree.balancedBTreeFind (keyCompare fun l r : ℕ ↦ keyComparePointer l r) (graph id M) fuel
        (d.sub p) (some obj) := by
    rw [KeywordSearch.findObject, KeywordSearch.balancedBTreeFind, hsub]
  rw [hfound]
  rcases find_of_agrees (h.inner p hp) hfuel (h.byAddress p hp).arranged hagrees with
    ⟨hrun, hnone⟩ | ⟨q, hq, hobject, hrun⟩
  · exact .inr ⟨hnone, hrun⟩
  · exact .inl ⟨q, hq, hobject, hrun⟩

end Index.Holds

/-! ## What the counts leave alone -/

namespace Index

/-- The two memories differ at the counts only: those of the items, and those that are taken to be
in the objects. -/
def Counted (d : Index) (M M' : Memory) : Prop :=
  ∀ x, (∀ q ∈ d.innerItems, x ≠ q + 48 ∧ x ≠ d.object q + 48 ∧ x ≠ d.object q + 184) → M' x = M x

variable {d : Index} {text : ℕ → Word} {M M' : Memory} {fuel : ℕ}

theorem Counted.refl (d : Index) (M : Memory) : d.Counted M M :=
  fun _ _ ↦ rfl

theorem Counted.trans {M₁ : Memory} (h : d.Counted M M₁) (h' : d.Counted M₁ M') :
    d.Counted M M' :=
  fun x hx ↦ (h' x hx).trans (h x hx)

theorem Counted.setVisited {q : ℕ} (hq : q ∈ d.innerItems) (n : ℕ) {p : ℕ}
    (hp : p = q ∨ p = d.object q ∨ p = d.object q + 136) :
    d.Counted M (KeywordSearch.setVisited M p n) := by
  intro x hx
  refine Function.update_of_ne ?_ _ _
  obtain ⟨hitem, hobj, hfield⟩ := hx q hq
  rcases hp with rfl | rfl | rfl
  · exact hitem
  · exact hobj
  · exact hfield

/-- A memory with the same words in the tree holds the tree. -/
theorem Holds.congr (h : d.Holds text M) (hreads : ∀ x ∈ d.reads M, M' x = M x)
    (hcontain : ∀ q ∈ d.innerItems, M' (d.object q + 144) = M (d.object q + 144))
    (hcontent : ∀ q ∈ d.innerItems, M' (d.object q + 152) = M (d.object q + 152)) :
    d.Holds text M' := by
  have houter : ∀ p ∈ inorder d.outer, ∀ x ∈ [p, p + 8, p + 16, p + 24, p + 32, M (p + 32),
      d.sub p + 24], M' x = M x := by
    intro p hp x hx
    exact hreads x (List.mem_append_left _
      (List.mem_cons_of_mem _ (List.mem_flatMap.mpr ⟨p, hp, hx⟩)))
  have hinner : ∀ q ∈ d.innerItems, ∀ x ∈ [q, q + 8, q + 16, q + 24, q + 32, M (q + 32)],
      M' x = M x := by
    intro q hq x hx
    exact hreads x (List.mem_append_right _ (List.mem_flatMap.mpr ⟨q, hq, hx⟩))
  have hsame : d.reads M' = d.reads M := by
    unfold reads
    congr 1
    · congr 1
      refine List.flatMap_congr fun p hp ↦ ?_
      rw [houter p hp (p + 32) (by simp)]
    · refine List.flatMap_congr fun q hq ↦ ?_
      rw [hinner q hq (q + 32) (by simp)]
  refine ⟨h.tree, ?_, h.byWord, ?_, ?_, ?_, h.byAddress, ?_, ?_, ?_, ?_, ?_⟩
  · refine ⟨?_, h.outer.nodup⟩
    have hroot : M' (d.tree + 24) = M (d.tree + 24) := hreads _ List.mem_cons_self
    have hlinks : Subtree (graph text M') none (pointer (M (d.tree + 24))) d.outer := by
      refine h.outer.links.congr ?_ ?_ ?_
      · exact fun p hp ↦ congrArg pointer (houter p hp p (by simp))
      · exact fun p hp ↦ congrArg pointer (houter p hp (p + 8) (by simp))
      · exact fun p hp ↦ congrArg pointer (houter p hp (p + 16) (by simp))
    rw [← hroot] at hlinks
    exact hlinks
  · intro p hp
    rw [houter p hp (p + 32) (by simp), houter p hp (M (p + 32)) (by simp)]
    exact h.words p hp
  · intro p hp
    rw [houter p hp (p + 24) (by simp)]
    exact h.subs p hp
  · intro p hp
    refine ⟨?_, (h.inner p hp).nodup⟩
    have hroot : M' (d.sub p + 24) = M (d.sub p + 24) := houter p hp _ (by simp)
    have hlinks : Subtree (graph id M') none (pointer (M (d.sub p + 24))) (d.inner p) := by
      refine (h.inner p hp).links.congr ?_ ?_ ?_
      · exact fun q hq ↦ congrArg pointer (hinner q (Holds.mem_innerItems hp hq) q (by simp))
      · exact fun q hq ↦ congrArg pointer (hinner q (Holds.mem_innerItems hp hq) (q + 8) (by simp))
      · exact fun q hq ↦ congrArg pointer (hinner q (Holds.mem_innerItems hp hq) (q + 16) (by simp))
    rw [← hroot] at hlinks
    exact hlinks
  · intro q hq
    rw [hinner q hq (q + 32) (by simp), hinner q hq (M (q + 32)) (by simp)]
    exact h.keys q hq
  · intro q hq
    rw [hinner q hq (q + 24) (by simp)]
    exact h.objects q hq
  · exact fun q hq ↦ (hcontain q hq).trans (h.containItem q hq)
  · exact fun q hq ↦ (hcontent q hq).trans (h.contentItem q hq)
  · refine ⟨?_, ?_, h.apart.both, h.apart.each⟩
    · rw [hsame]
      exact h.apart.counts
    · rw [hsame]
      exact h.apart.objects

/-- A word of an object that is no count of the search. -/
theorem Holds.counted_object (h : d.Holds text M) (hcounted : d.Counted M M') {q n : ℕ}
    (hq : q ∈ d.innerItems) (hn : n < 192) (h48 : n ≠ 48) (h184 : n ≠ 184) :
    M' (d.object q + n) = M (d.object q + n) := by
  refine hcounted _ fun q' hq' ↦ ?_
  have hboth := h.apart.both q' hq' q hq
  by_cases heq : d.object q' = d.object q
  · rw [heq]
    omega
  · have heach := h.apart.each q' hq' q hq heq
    omega

/-- The search goes on in the same tree. -/
theorem Holds.counted (h : d.Holds text M) (hcounted : d.Counted M M') : d.Holds text M' := by
  refine h.congr ?_ ?_ ?_
  · intro x hx
    refine hcounted x fun q hq ↦ ⟨?_, ?_, ?_⟩
    · rintro rfl
      exact h.apart.counts q hq hx
    · have hapart := h.apart.objects q hq x hx
      omega
    · have hapart := h.apart.objects q hq x hx
      omega
  · exact fun q hq ↦ h.counted_object hcounted hq (by omega) (by omega) (by omega)
  · exact fun q hq ↦ h.counted_object hcounted hq (by omega) (by omega) (by omega)

end Index

end HavokMud.Objects.KeywordSearch
