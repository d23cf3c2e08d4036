import HavokMud.Attributes.Trees
import HavokMud.Interaction.Locks

/-!
# The locks of the attributes

Every tree of a pc has a mutex of its own.  The calls of `json_attribs.c` hold up to three of them
and call one another, some with locks that the callee takes again.
-/

namespace HavokMud.Attributes.Locks

open BinaryTree BTree SearchTree Json Interaction Locking

/-- A tree by name.  The items of a JSON array have no names, and a comparison with such an item
follows NULL, so it is the only one of its tree. -/
inductive Named (β : Type)
  | named (tree : BinaryTree (CString × β))
  | nameless (item : β)

/-- A `PlayerPC_t`. -/
structure PlayerPC where
  attribs : Option (Named Tree)
  sources : Option (BinaryTree (CString × Named Value))

/-- The mutexes of `pc->attribs`, of `pc->sources` and of the trees in them. -/
inductive Mutex
  | attribs
  | sources
  | attrib (name : Option (List ℕ))
  | source (name : List ℕ)
deriving DecidableEq

namespace Named

variable {β : Type}

/-- `BalancedBTreeFind` on a locked tree. -/
def find (name : Option CString) : Named β → Locking Mutex (Option β)
  | .named tree =>
      match name with
      | some name => pure (Dictionary.lookup compareKeys name tree)
      | none =>
          match tree with
          | .nil => pure none
          | .node _ _ _ => crash
  | .nameless _ => crash

/-- The item at a name is replaced or added, where `find` did not crash. -/
def put (name : Option CString) (item : β) : Named β → Named β
  | .named tree =>
      match name with
      | some name => .named (Dictionary.put compareKeys false name item tree)
      | none => .nameless item
  | .nameless old => .nameless old

/-- `BalancedBTreeRebalance`. -/
def rebalance : Named β → Named β
  | .named tree => .named (balance tree)
  | .nameless item => .nameless item

/-- The items with their names. -/
def items : Named β → BinaryTree (Option CString × β)
  | .named tree => tree.map fun e ↦ (some e.1, e.2)
  | .nameless item => .node (none, item) .nil .nil

end Named

/-- Between `BalancedBTreeLock` and `BalancedBTreeUnlock`, which do nothing for NULL. -/
def withinTree {α β : Type} (tree : Option β) (m : Mutex) (p : Locking Mutex α) :
    Locking Mutex α :=
  if tree.isSome then within m p else p

/-! ## Writing -/

/-- The children of a value. -/
def children : Value → List (Option CString × Value)
  | .object members => members.map fun member ↦ (some member.1, member.2)
  | .array items => items.map fun item ↦ (none, item)
  | _ => []

/-- A value goes to a source in the tree of an attribute, which `BalancedBTreeFind` and
`BalancedBTreeAdd` lock on their own. -/
def storeValue (m : Mutex) (source : CString) (value : Value) (subTree : Tree) :
    Locking Mutex Tree := do
  match ← within m (pure (Dictionary.lookup compareKeys source subTree)) with
  | some _ => pure (Dictionary.assign compareKeys source value subTree)
  | none => within m (pure (Dictionary.add compareKeys true source value subTree))

/-- One turn of the loop of `AddJSONToTrees`. -/
def addChild (source : CString) (trees : Named Tree × Named Value)
    (child : Option CString × Value) : Locking Mutex (Named Tree × Named Value) := do
  let found ← trees.1.find child.1
  let subTree ← storeValue (.attrib (child.1.map rank)) source child.2.clone (found.getD .nil)
  let _ ← trees.2.find child.1
  pure (trees.1.put child.1 subTree, trees.2.put child.1 child.2.clone)

/-- What `AddJSONToTrees` does under its locks. -/
def addChildren (source : CString) (jsonTree : Option Value) (attribs : Named Tree)
    (sources : BinaryTree (CString × Named Value)) : Locking Mutex PlayerPC := do
  let found := Dictionary.lookup compareKeys source sources
  let sources := if found.isSome then sources
    else Dictionary.add compareKeys true source (.named .nil) sources
  let jsonTree ← follow jsonTree
  let trees ← (children jsonTree).foldlM (addChild source) (attribs, found.getD (.named .nil))
  pure ⟨some trees.1.rebalance,
    some (Dictionary.assign compareKeys source trees.2.rebalance sources)⟩

/-- `AddJSONToTrees` on a pc, over any `cJSON_Parse`. -/
def addJSONToTrees (cJSONParse : Text → Option Value) (json : Text) (source : CString)
    (pc : PlayerPC) : Locking Mutex PlayerPC :=
  let attribs := pc.attribs.getD (.named .nil)
  let sources := pc.sources.getD .nil
  match stripWhitespace json with
  | none => pure ⟨some attribs, some sources⟩
  | some json =>
      within .attribs (within .sources (within (.source (rank source))
        (addChildren source (cJSONParse json) attribs sources)))

/-- `AddAttribute`, whose arguments may be NULL. -/
def addAttribute (cJSONParse : Text → Option Value) (json : Option Text) (source : Option CString)
    (pc : Option PlayerPC) : Locking Mutex (Option PlayerPC) :=
  match json, source, pc with
  | some json, some source, some pc => some <$> addJSONToTrees cJSONParse json source pc
  | _, _, _ => pure pc

/-- The `SetAttribute*` functions, with the value as they print it. -/
def setAttribute (cJSONParse : Text → Option Value) (pc : Option PlayerPC)
    (attrib source : Option CString) (value : Text) : Locking Mutex (Option PlayerPC) :=
  match attrib, source with
  | some attrib, some source =>
      addAttribute cJSONParse (some (memberText attrib value)) (some source) pc
  | _, _ => pure pc

/-- What `SetAttributeString` prints. -/
def stringText : Option CString → Text
  | none => [110, 117, 108, 108]
  | some val => 34 :: (val.val ++ [34])

/-! ## Reading -/

/-- What `GetAttribute` does with the tree of an attribute, if there is one. -/
def onSubTree (attrib : CString) (body : Tree → Locking Mutex (Option Value)) :
    Option Tree → Locking Mutex (Option Value)
  | none => pure none
  | some subTree => within (.attrib (some (rank attrib))) (body subTree)

/-- What `GetAttribute` does around the tree of an attribute. -/
def onAttribute (pc : Option PlayerPC) (attrib : Option CString)
    (body : CString → Tree → Locking Mutex (Option Value)) : Locking Mutex (Option Value) :=
  match pc.bind PlayerPC.attribs, attrib with
  | some attribs, some attrib =>
      within .attribs (attribs.find (some attrib) >>= onSubTree attrib (body attrib))
  | _, _ => pure none

/-- `GetAttribute` with a source.  The NULL that stands for no item is followed. -/
def getAttributeFrom (pc : Option PlayerPC) (attrib : Option CString) (source : CString) :
    Locking Mutex (Option Value) :=
  onAttribute pc attrib fun _ subTree ↦ do
    let item ← follow (Dictionary.lookup compareKeys source subTree)
    pure (some item.clone)

/-- `aggregate`. -/
def aggregateSource : CString :=
  ⟨[97, 103, 103, 114, 101, 103, 97, 116, 101], by decide⟩

/-- `GetAttribute`.  Without a source it combines the values of all sources, in a way that it reads
with a call of its own. -/
def getAttribute (combine : Option Value → CString → Tree → Value) (pc : Option PlayerPC)
    (attrib : Option CString) : Option CString → Locking Mutex (Option Value)
  | some source => getAttributeFrom pc attrib source
  | none => onAttribute pc attrib fun name subTree ↦ do
      let jsonItem ← getAttributeFrom pc attrib aggregateSource
      pure (some (combine jsonItem name subTree))

/-! ## Deleting -/

/-- `SourceDeleteAttrib`. -/
def sourceDeleteAttrib (attrib source : CString) (tree : Named Value) :
    Locking Mutex (Named Value) :=
  within (.source (rank source)) do
    let item ← tree.find (some attrib)
    match item, tree with
    | some _, .named tree => pure (.named (balance (Dictionary.erase compareKeys attrib tree)))
    | _, tree => pure tree

/-- `SourceTreeDeleteAttrib`, which does not stop at NULL. -/
def sourceTreeDeleteAttrib (attrib : CString) :
    BinaryTree (CString × Named Value) → Locking Mutex (BinaryTree (CString × Named Value))
  | .nil => crash
  | .node e l r => do
      let l ← sourceTreeDeleteAttrib attrib l
      let tree ← sourceDeleteAttrib attrib e.1 e.2
      let r ← sourceTreeDeleteAttrib attrib r
      pure (.node (e.1, tree) l r)

/-- `SourceTreeCleanup`: an empty tree is removed, if there is one. -/
def sourceTreeCleanup : BinaryTree (CString × Named Value) →
    Locking Mutex (Option (BinaryTree (CString × Named Value)))
  | .nil => pure none
  | .node e l r => do
      match ← sourceTreeCleanup l with
      | some l => pure (some (.node e l r))
      | none =>
          match ← sourceTreeCleanup r with
          | some r => pure (some (.node e l r))
          | none => within (.source (rank e.1)) (pure (match e.2.items with
              | .nil => some (dropRoot (.node e l r))
              | .node _ _ _ => none))

/-- The loop around `SourceTreeCleanup`, which removes at most all items. -/
def cleanUp : ℕ → BinaryTree (CString × Named Value) →
    Locking Mutex (BinaryTree (CString × Named Value))
  | 0, tree => pure tree
  | turns + 1, tree => do
      match ← sourceTreeCleanup tree with
      | some tree => cleanUp turns tree
      | none => pure tree

section Destroying

variable {α : Type} (free : α → Locking Mutex Unit)

/-- The item of the first leaf is freed, and the leaf removed.  There is no result when the tree is
empty. -/
def destroyLeaf : BinaryTree α → Locking Mutex (Option (BinaryTree α))
  | .nil => pure none
  | .node a l r => do
      match ← destroyLeaf l with
      | some l => pure (some (.node a l r))
      | none =>
          match ← destroyLeaf r with
          | some r => pure (some (.node a l r))
          | none =>
              free a
              pure (some .nil)

/-- The loop around `destroyLeaf`. -/
def destroyLeaves : ℕ → BinaryTree α → Locking Mutex (BinaryTree α)
  | 0, tree => pure tree
  | turns + 1, tree => do
      match ← destroyLeaf free tree with
      | some tree => destroyLeaves turns tree
      | none => pure tree

end Destroying

/-- The loop around `AttribTreeItemsDestroy` or `DestroyAttrib2Tree`, and `BalancedBTreeDestroy`,
which unlocks the tree. -/
def destroySubTree {α : Type} (m : Mutex) (subTree : BinaryTree α) : Locking Mutex Unit :=
  within m do
    let _ ← destroyLeaves (fun _ ↦ pure ()) subTree.numNodes subTree
    pure ()

/-- What `DeleteAttribute` does with the tree of an attribute, under its lock or up to its end. -/
def deleteFromSubTree (attrib : CString) (subTree : Tree) (trees : BinaryTree (CString × Tree)) :
    Option CString → Locking Mutex (BinaryTree (CString × Tree))
  | none => do
      destroySubTree (.attrib (some (rank attrib))) subTree
      pure (balance (Dictionary.erase compareKeys attrib trees))
  | some source => do
      let subTree ← within (.attrib (some (rank attrib))) (pure (
        if (Dictionary.lookup compareKeys source subTree).isSome then
          balance (Dictionary.erase compareKeys source subTree)
        else subTree))
      pure (Dictionary.assign compareKeys attrib subTree trees)

/-- `DeleteAttribute` on the tree of attributes. -/
def deleteFromAttribs (attrib : CString) (source : Option CString) :
    Option (Named Tree) → Locking Mutex (Option (Named Tree))
  | none => pure none
  -- the search compares the name with NULL
  | some (.nameless _) => crash
  | some (.named trees) =>
      match Dictionary.lookup compareKeys attrib trees with
      | none => pure (some (.named trees))
      | some subTree => do
          let trees ← deleteFromSubTree attrib subTree trees source
          pure (some (.named trees))

/-- What `DeleteAttribute` does with the tree of a source, which `SourceDeleteAttrib` locks too. -/
def deleteFromSource (attrib source : CString) (subTree : Named Value)
    (sources : BinaryTree (CString × Named Value)) :
    Locking Mutex (BinaryTree (CString × Named Value)) :=
  within (.source (rank source)) do
    let subTree ← sourceDeleteAttrib attrib source subTree
    pure (match subTree.items with
      | .nil => balance (Dictionary.erase compareKeys source sources)
      | .node _ _ _ => Dictionary.assign compareKeys source subTree sources)

/-- `DeleteAttribute` on the tree of sources. -/
def deleteFromSources (attrib : CString) (source : Option CString)
    (sources : Option (BinaryTree (CString × Named Value))) :
    Locking Mutex (Option (BinaryTree (CString × Named Value))) :=
  match source, sources with
  | none, sources => do
      let sources ← follow sources
      let deleted ← sourceTreeDeleteAttrib attrib sources
      let cleaned ← cleanUp deleted.numNodes deleted
      pure (some (if cleaned.numNodes < deleted.numNodes then balance cleaned else cleaned))
  | some _, none => pure none
  | some source, some sources =>
      match Dictionary.lookup compareKeys source sources with
      | none => pure (some sources)
      | some subTree => some <$> deleteFromSource attrib source subTree sources

/-- What `DeleteAttribute` does under the locks of the two trees. -/
def deleteFromTrees (attrib : CString) (source : Option CString) (pc : PlayerPC) :
    Locking Mutex (Option PlayerPC) := do
  let attribs ← deleteFromAttribs attrib source pc.attribs
  let sources ← deleteFromSources attrib source pc.sources
  pure (some ⟨attribs, sources⟩)

/-- `DeleteAttribute`. -/
def deleteAttribute (attrib source : Option CString) (pc : Option PlayerPC) :
    Locking Mutex (Option PlayerPC) :=
  match attrib, pc with
  | some attrib, some pc =>
      withinTree pc.attribs .attribs (withinTree pc.sources .sources
        (deleteFromTrees attrib source pc))
  | _, pc => pure pc

/-- What `DestroyAttributes` does with one of the two trees. -/
def destroyTree {α : Type} (m : Mutex) (destroyItem : α → Locking Mutex Unit) :
    Option (BinaryTree α) → Locking Mutex Unit
  | none => pure ()
  | some tree => within m do
      let _ ← destroyLeaves destroyItem tree.numNodes tree
      pure ()

/-- `DestroyAttributes`. -/
def destroyAttributes (pc : Option PlayerPC) : Locking Mutex (Option PlayerPC) :=
  match pc with
  | none => pure none
  | some pc => do
      destroyTree .attribs (fun e ↦ destroySubTree (.attrib (e.1.map rank)) e.2)
        (pc.attribs.map Named.items)
      destroyTree .sources (fun e ↦ destroySubTree (.source (rank e.1)) e.2.items) pc.sources
      pure (some ⟨none, none⟩)

/-! ## The calls -/

/-- The calls of the interface. -/
inductive Call
  | getAttribute (attrib source : Option CString)
  | getAttributeInt (attrib source : Option CString)
  | getAttributeBool (attrib source : Option CString)
  | getAttributeString (attrib source : Option CString)
  | setAttributeString (attrib source val : Option CString)
  | setAttributeInt (attrib source : Option CString) (val : ℤ)
  | setAttributeDouble (attrib source : Option CString) (sval : Text)
  | setAttributeBool (attrib source : Option CString) (val : Bool)
  | addAttribute (json : Option Text) (source : Option CString)
  | deleteAttribute (attrib source : Option CString)
  | destroyAttributes

section Getters

variable (combine : Option Value → CString → Tree → Value) (pc : Option PlayerPC)
  (attrib source : Option CString)

/-- `GetAttributeInt`. -/
def getAttributeInt : Locking Mutex ℤ := do
  let jsonItem ← getAttribute combine pc attrib source
  pure ((jsonItem.map Value.valueint).getD 0)

/-- `GetAttributeBool`. -/
def getAttributeBool : Locking Mutex Bool := do
  let jsonItem ← getAttribute combine pc attrib source
  pure (decide (jsonItem.map Value.type = some .true))

/-- `GetAttributeString`. -/
def getAttributeString : Locking Mutex (Option CString) := do
  let jsonItem ← getAttribute combine pc attrib source
  pure (jsonItem.bind Value.valuestring)

end Getters

section Setters

variable (cJSONParse : Text → Option Value) (pc : Option PlayerPC) (attrib source : Option CString)

/-- `SetAttributeString`. -/
def setAttributeString (val : Option CString) : Locking Mutex (Option PlayerPC) :=
  setAttribute cJSONParse pc attrib source (stringText val)

/-- `SetAttributeInt`. -/
def setAttributeInt (val : ℤ) : Locking Mutex (Option PlayerPC) :=
  setAttribute cJSONParse pc attrib source (printNumber val)

/-- `SetAttributeDouble`, with the number as it is printed. -/
def setAttributeDouble (sval : Text) : Locking Mutex (Option PlayerPC) :=
  setAttribute cJSONParse pc attrib source sval

/-- `SetAttributeBool`. -/
def setAttributeBool (val : Bool) : Locking Mutex (Option PlayerPC) :=
  setAttribute cJSONParse pc attrib source (boolText val)

end Setters

/-- A call on a pc, with the pc that it leaves. -/
def Call.exec (cJSONParse : Text → Option Value)
    (combine : Option Value → CString → Tree → Value) (pc : Option PlayerPC) :
    Call → Locking Mutex (Option PlayerPC)
  | .getAttribute attrib source => do
      let _ ← Locks.getAttribute combine pc attrib source
      pure pc
  | .getAttributeInt attrib source => do
      let _ ← Locks.getAttributeInt combine pc attrib source
      pure pc
  | .getAttributeBool attrib source => do
      let _ ← Locks.getAttributeBool combine pc attrib source
      pure pc
  | .getAttributeString attrib source => do
      let _ ← Locks.getAttributeString combine pc attrib source
      pure pc
  | .setAttributeString attrib source val =>
      Locks.setAttributeString cJSONParse pc attrib source val
  | .setAttributeInt attrib source val => Locks.setAttributeInt cJSONParse pc attrib source val
  | .setAttributeDouble attrib source sval =>
      Locks.setAttributeDouble cJSONParse pc attrib source sval
  | .setAttributeBool attrib source val => Locks.setAttributeBool cJSONParse pc attrib source val
  | .addAttribute json source => Locks.addAttribute cJSONParse json source pc
  | .deleteAttribute attrib source => Locks.deleteAttribute attrib source pc
  | .destroyAttributes => Locks.destroyAttributes pc

end HavokMud.Attributes.Locks
