import HavokMud.BTree.Forest
import HavokMud.BTree.Keys

/-!
# The indexes of the objects

`object_data.c` finds objects by a keyword and by their type.  Each index is a tree of trees: an
item of the outer tree has a keyword or a type as its key and a tree of its own, whose items stand
for objects and are ordered by address.  The inner items are parts of the objects: one for the type
index, and one array, as long as the keywords, for all keyword indexes.

The items of all indexes live in one heap of tree items.
-/

namespace HavokMud.Objects

open BTree

/-- Where an object is. -/
abbrev Address := Fin (2 ^ 63)

instance instNeZeroAddress : NeZero (2 ^ 63) :=
  ⟨by decide⟩

/-- A keyword. -/
abbrev Word := {text : List UInt8 // 0 ∉ text}

/-- `ItemType_t`, of which any value that is not negative is possible here. -/
abbrev ItemType := Fin (2 ^ 31)

instance instNeZeroItemType : NeZero (2 ^ 31) :=
  ⟨by decide⟩

/-- The keyword indexes: `objectKeywordTree`, the `contentKeywordTree` of a room and the
`containKeywordTree` of an object. -/
inductive KeywordTree where
  | objects
  | content (room : ℤ)
  | contain (obj : Address)
deriving DecidableEq

/-- The trees: the outer ones, and the one of each outer item. -/
inductive Tree where
  | keywords (index : KeywordTree)
  | types
  | sub (n : ℕ)
deriving DecidableEq

/-- The items: the outer ones by number, and those in an object. -/
inductive Item where
  | outer (n : ℕ)
  | keywordItem (obj : Address) (i : ℕ)
  | typeItem (obj : Address)
deriving DecidableEq

/-- What the key of an item points to. -/
inductive Key where
  | null
  | word (text : Word)
  | object (obj : Address)
  | type (flag : ItemType)
deriving DecidableEq

/-- The callbacks on the keys that they are for.  What they make of other keys is unknown. -/
def keyCompare (garbage : Key → Key → ℤ) : Key → Key → ℤ
  | .null, _ => 0
  | _, .null => 0
  | .word l, .word r => keyCompareString l r
  | .object l, .object r => keyComparePointer l r
  | .type l, .type r => keyCompareInt l r
  | l, r => garbage l r

/-- `item->item` of an outer item. -/
def Item.subtree : Item → Option Tree
  | .outer n => some (.sub n)
  | _ => none

/-- `item->item` of an inner item. -/
def Item.object : Item → Option Address
  | .outer _ => none
  | .keywordItem obj _ => some obj
  | .typeItem obj => some obj

/-- The indexes and what they read of the objects. -/
structure Indexes where
  heap : Heap Item Key Tree
  items : ℕ
  words : Address → List (Option Word)
  keywordItem : Address → Bool
  typeFlag : Address → ItemType
  live : Finset Address

/-- A new key of an item. -/
def setKey (h : Heap Item Key Tree) (item : Item) (key : Key) : Heap Item Key Tree :=
  { h with key := Function.update h.key item key }

/-- `memset( item, 0, sizeof(BalancedBTreeItem_t) )`. -/
def clearItem (h : Heap Item Key Tree) (item : Item) : Heap Item Key Tree :=
  setKey (((((h.setLeft item none).setRight item none).setParent item none).setBtree item
    none).setVisited item 0) item .null

section Functions

variable (garbage : Key → Key → ℤ) (fuel : ℕ)

/-- `BalancedBTreeFind` on a tree that may be NULL. -/
def findIn (h : Heap Item Key Tree) (tree : Option Tree) (key : Key) : Option (Option Item) :=
  match tree with
  | none => some none
  | some tree => balancedBTreeFind (keyCompare garbage) h fuel tree key

/-- A new item with an empty tree is added to an outer tree. -/
def addOuter (tree : Option Tree) (key : Key) (s : Indexes) : Option Indexes := do
  let heap := setKey (s.heap.setRoot (.sub s.items) none) (.outer s.items) key
  let heap ← match tree with
    | none => some heap
    | some tree =>
        balancedBTreeAdd (keyCompare garbage) fuel heap tree (some (.outer s.items)) true
  some { s with heap, items := s.items + 1 }

/-- An item of an object is added to the tree of an outer item. -/
def addInner (sub : Tree) (item : Item) (obj : Address) (s : Indexes) : Option Indexes := do
  let heap ← balancedBTreeAdd (keyCompare garbage) fuel (setKey s.heap item (.object obj)) sub
    (some item) true
  some { s with heap }

/-- The body of `objectTypeTreeAdd`, and of the loop of `objectKeywordTreeAdd`. -/
def indexAdd (tree : Option Tree) (key : Key) (item : Item) (obj : Address) (s : Indexes) :
    Option Indexes := do
  match ← findIn garbage fuel s.heap tree key with
  | none => do
      let s' ← addOuter garbage fuel tree key s
      addInner garbage fuel (.sub s.items) item obj s'
  | some found => do
      let sub ← found.subtree
      addInner garbage fuel sub item obj s

/-- The body of `objectTypeTreeRemove`, and of the loop of `objectKeywordTreeRemove`: the outer item
is looked up in one tree, and if its own tree gets empty, removed from the other. -/
def indexRemove (searched pruned : Option Tree) (key : Key) (obj : Address) (s : Indexes) :
    Option Indexes := do
  match ← findIn garbage fuel s.heap searched key with
  | none => some s
  | some found => do
      let sub ← found.subtree
      match ← balancedBTreeFind (keyCompare garbage) s.heap fuel sub (.object obj) with
      | none => some s
      | some objItem => do
          let heap ← balancedBTreeRemove fuel s.heap sub (some objItem) true
          let heap := clearItem heap objItem
          match heap.root sub, pruned with
          | none, some pruned => do
              let heap ← balancedBTreeRemove fuel heap pruned (some found) true
              some { s with heap }
          | _, _ => some { s with heap }

/-- One turn for each keyword that is not NULL. -/
def eachWord (turn : Word → ℕ → Indexes → Option Indexes) (words : List (Option Word)) (first : ℕ)
    (s : Indexes) : Option Indexes :=
  (words.zipIdx first).foldlM (fun s word ↦ match word.1 with
    | none => some s
    | some text => turn text word.2 s) s

def objectKeywordTreeAdd (tree : Option KeywordTree) (obj : Address) (s : Indexes) :
    Option Indexes :=
  let s := { s with keywordItem := Function.update s.keywordItem obj true }
  eachWord (fun text i ↦ indexAdd garbage fuel (tree.map .keywords) (.word text)
    (.keywordItem obj i) obj) (s.words obj) 0 s

def objectKeywordTreeRemove (tree : Option KeywordTree) (obj : Address) (s : Indexes) :
    Option Indexes := do
  let tree := tree.map .keywords
  let s ← eachWord (fun text _ ↦ indexRemove garbage fuel tree tree (.word text) obj)
    (s.words obj) 0 s
  some { s with keywordItem := Function.update s.keywordItem obj false }

def objectTypeTreeAdd (obj : Address) (s : Indexes) : Option Indexes :=
  indexAdd garbage fuel (some .types) (.type (s.typeFlag obj)) (.typeItem obj) obj s

/-- `objectTypeTreeRemove`, which looks for the type in `objectKeywordTree`. -/
def objectTypeTreeRemove (obj : Address) (s : Indexes) : Option Indexes :=
  indexRemove garbage fuel (some (.keywords .objects)) (some .types) (.type (s.typeFlag obj)) obj s

/-- `CREATEN(struct obj_data, 1)` and `objectClear`, with the keywords and the type that the
database has for the object. -/
def create (obj : Address) (flag : ItemType) (words : List (Option Word)) (s : Indexes) : Indexes :=
  { s with
    heap := clearItem s.heap (.typeItem obj)
    words := Function.update s.words obj words
    keywordItem := Function.update s.keywordItem obj false
    typeFlag := Function.update s.typeFlag obj flag
    live := insert obj s.live }

/-- `objectFree`. -/
def objectFree (obj : Address) (s : Indexes) : Indexes :=
  { s with live := s.live.erase obj }

/-- What `objectRead` does for the indexes. -/
def objectRead (obj : Address) (flag : ItemType) (words : List (Option Word)) (s : Indexes) :
    Option Indexes := do
  let s ← objectKeywordTreeAdd garbage fuel (some .objects) obj (create obj flag words s)
  objectTypeTreeAdd garbage fuel obj s

/-- What `objectExtract` does for the indexes with an object that is nowhere and holds nothing. -/
def objectExtract (obj : Address) (s : Indexes) : Option Indexes := do
  let s ← objectKeywordTreeRemove garbage fuel (some .objects) obj s
  let s ← objectTypeTreeRemove garbage fuel obj s
  some (objectFree obj s)

/-- `objectTypeFindNext`, with no last object for `objectTypeFindFirst`. -/
def objectTypeFindNext (flag : ItemType) (lastobj : Option Address) (s : Indexes) :
    Option (Indexes × Option Address) := do
  match ← findIn garbage fuel s.heap (some .types) (.type flag) with
  | none => some (s, none)
  | some found => do
      let sub ← found.subtree
      let (heap, objItem) ← match lastobj with
        | none => do
            let heap ← balancedBTreeUnvisit fuel s.heap (s.heap.root sub)
            let least ← balancedBTreeFindLeast heap fuel (heap.root sub)
            some (heap, least)
        | some lastobj =>
            findNextLoop fuel (fun item ↦ some (some item)) fuel s.heap (.typeItem lastobj)
      some ({ s with heap }, objItem.bind Item.object)

/-- The objects that the calls from one object on return, until one returns NULL. -/
def objectsFrom (flag : ItemType) : ℕ → Option Address → Indexes → Option (List Address)
  | 0, _, _ => none
  | turns + 1, lastobj, s => do
      let (s, found) ← objectTypeFindNext garbage fuel flag lastobj s
      match found with
      | none => some []
      | some obj => do
          let rest ← objectsFrom flag turns (some obj) s
          some (obj :: rest)

/-- `objectTypeFindFirst`, and `objectTypeFindNext` as long as it returns an object. -/
def objectsOfType (flag : ItemType) (s : Indexes) : Option (List Address) :=
  objectsFrom garbage fuel flag fuel none s

end Functions

/-- No object has been read. -/
def Indexes.empty : Indexes where
  heap :=
    { left := fun _ ↦ none
      right := fun _ ↦ none
      parent := fun _ ↦ none
      key := fun _ ↦ .null
      btree := fun _ ↦ none
      visited := fun _ ↦ 0
      root := fun _ ↦ none }
  items := 0
  words _ := []
  keywordItem _ := false
  typeFlag _ := 0
  live := ∅

end HavokMud.Objects
