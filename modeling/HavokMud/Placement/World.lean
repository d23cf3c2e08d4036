import HavokMud.LinkedList.Lists
import Mathlib.Algebra.Group.Nat.Defs
import Mathlib.Data.Int.Init

/-!
# Objects and where they are

`object_data.c` puts objects into rooms, into other objects and into the hands of characters.  An
object has a link for the list of a room, one for the list of the object that holds it and one for
the list of its kind; what a character carries is a chain through `next_content`.  Weights are kept
at every object and character.

The mutexes of the lists may be real or no-ops.  The trees of `object_data.c` are left out, and so
are texts and the log; `save_room` does nothing in this commit.
-/

namespace HavokMud.Placement

open Interaction Locking LinkedList

/-- Objects in the order of their making. -/
abbrev Obj := ℕ

abbrev Character := ℕ

/-- The mutexes of the lists: `containList` of an object, `contentList` of a room and `list` of an
index. -/
inductive Mutex where
  | contain (obj : Obj)
  | content (room : ℤ)
  | index (vnum : ℤ)
deriving DecidableEq

/-- The numbers of the rooms.  `NOWHERE` is none of them. -/
structure Rooms where
  has : ℤ → Bool
  nowhere : has (-1) = false

/-- The objects, characters, rooms and indexes. -/
structure World where
  contain : Heap Obj Obj
  content : Heap Obj ℤ
  global : Heap Obj ℤ
  inRoom : Obj → ℤ
  carriedBy : Obj → Option Character
  equippedBy : Obj → Option Character
  eqPos : Obj → ℤ
  inObj : Obj → Option Obj
  nextContent : Obj → Option Obj
  weight : Obj → ℤ
  itemNumber : Obj → ℤ
  index : Obj → ℤ
  timer : Obj → ℤ
  costPerDay : Obj → ℤ
  rare : Obj → Bool
  carrying : Character → Option Obj
  carryWeight : Character → ℤ
  carryItems : Character → ℤ
  equipment : Character → ℤ → Option Obj
  rooms : Rooms
  indexes : ℤ → Bool
  number : ℤ → ℤ
  objCount : ℤ
  live : Finset Obj
  nextObj : Obj

/-- The conversion of a `long` to `int`. -/
def toInt (n : ℤ) : ℤ :=
  n.bmod (2 ^ 32)

section Loops

/-- A loop over the items of a list that reads the next item first. -/
def eachItem {σ : Type} (next : σ → Obj → Option Obj) (body : Obj → σ → Locking Mutex σ) :
    ℕ → Option Obj → σ → Locking Mutex σ
  | _, none, s => pure s
  | 0, some _, _ => unfinished
  | fuel + 1, some item, s => do
      let nextItem := next s item
      let s ← body item s
      eachItem next body fuel nextItem s

/-- A loop over the items of a list that reads the next item afterwards. -/
def forItems {σ : Type} (next : σ → Obj → Option Obj) (body : Obj → σ → Locking Mutex σ) :
    ℕ → Option Obj → σ → Locking Mutex σ
  | _, none, s => pure s
  | 0, some _, _ => unfinished
  | fuel + 1, some item, s => do
      let s ← body item s
      forItems next body fuel (next s item) s

/-- The loop of `objectTakeFromChar`: who comes before an object. -/
def findBefore (next : Obj → Option Obj) (object : Obj) :
    ℕ → Option Obj → Locking Mutex (Option Obj)
  | _, none => pure none
  | 0, some _ => unfinished
  | fuel + 1, some tmp =>
      if next tmp = some object then pure (some tmp) else findBefore next object fuel (next tmp)

/-- The loop of `objectPutInObjectLocked`. -/
def addWeights (obj : Obj) : ℕ → Option Obj → World → Locking Mutex World
  | _, none, w => pure w
  | 0, some _, _ => unfinished
  | fuel + 1, some tmp, w =>
      addWeights obj fuel (w.inObj tmp)
        { w with weight := Function.update w.weight tmp (w.weight tmp + w.weight obj) }

/-- The loop of `objectTakeFromObject`, which ends with the outermost container. -/
def subtractWeights (obj : Obj) : ℕ → Obj → World → Locking Mutex (World × Obj)
  | 0, _, _ => unfinished
  | fuel + 1, tmp, w =>
      let w' := { w with weight := Function.update w.weight tmp (w.weight tmp - w.weight obj) }
      match w.inObj tmp with
      | none => pure (w', tmp)
      | some next => subtractWeights obj fuel next w'

end Loops

/-- The flags of the room of an object are read, if it is in one. -/
def readRoomFlags (obj : Obj) (w : World) : Locking Mutex Unit :=
  if w.inRoom obj ≠ -1 ∧ w.rooms.has (w.inRoom obj) = false then crash else pure ()

section Functions

variable (real : Bool) (fuel : ℕ)

/-! ## Rooms -/

def objectTakeFromRoom (object : Obj) (locked : Bool) (w : World) : Locking Mutex World := do
  let room := w.inRoom object
  if room ≤ -1 ∨ w.rooms.has room = false then
    return w
  let content ← linkedListRemove real (.content room) room w.content object locked
  pure { w with
    content
    inRoom := Function.update w.inRoom object (-1)
    nextContent := Function.update w.nextContent object none }

def objectPutInRoom (object : Obj) (room : ℤ) (locked : Bool) (w : World) :
    Locking Mutex World := do
  let room := if room = -1 then 4 else room
  if (w.equippedBy object).isSome ∨ w.eqPos object ≠ -1 ∨ w.rooms.has (toInt room) = false ∨
      w.inRoom object = room then
    return w
  let w ← (if -1 < w.inRoom object then objectTakeFromRoom real object false w else pure w)
  let content ← linkedListAdd real (.content (toInt room)) (toInt room) w.content object locked
    .atTail
  pure { w with
    content
    inRoom := Function.update w.inRoom object (toInt room)
    carriedBy := Function.update w.carriedBy object none
    equippedBy := Function.update w.equippedBy object none }

/-! ## Characters -/

def objectGiveToChar (object : Obj) (ch : Character) (w : World) : World :=
  if (w.inObj object).isSome ∨ (w.carriedBy object).isSome ∨ (w.equippedBy object).isSome ∨
      w.inRoom object ≠ -1 then
    w
  else
    { w with
      nextContent := Function.update w.nextContent object (w.carrying ch)
      carrying := Function.update w.carrying ch (some object)
      carriedBy := Function.update w.carriedBy object (some ch)
      inRoom := Function.update w.inRoom object (-1)
      equippedBy := Function.update w.equippedBy object none
      inObj := Function.update w.inObj object none
      carryWeight := Function.update w.carryWeight ch (w.carryWeight ch + w.weight object)
      carryItems := Function.update w.carryItems ch (w.carryItems ch + 1) }

/-- What `objectTakeFromChar` does once the object is off the chain. -/
def leaveChar (object : Obj) (ch : Character) (w : World) : World :=
  { w with
    carryWeight := Function.update w.carryWeight ch (w.carryWeight ch - w.weight object)
    carryItems := Function.update w.carryItems ch (w.carryItems ch - 1)
    carriedBy := Function.update w.carriedBy object none
    equippedBy := Function.update w.equippedBy object none
    nextContent := Function.update w.nextContent object none
    inObj := Function.update w.inObj object none }

def objectTakeFromChar (object : Obj) (w : World) : Locking Mutex World := do
  match w.carriedBy object with
  | none => pure w
  | some ch =>
      if w.carrying ch = none ∨ (w.inObj object).isSome ∨ (w.equippedBy object).isSome then
        pure w
      else if w.carrying ch = some object then
        pure (leaveChar object ch
          { w with carrying := Function.update w.carrying ch (w.nextContent object) })
      else do
        match ← findBefore w.nextContent object fuel (w.carrying ch) with
        | none => pure w
        | some tmp =>
            pure (leaveChar object ch
              { w with nextContent := Function.update w.nextContent tmp (w.nextContent object) })

/-! ## Containers -/

def objectPutInObjectLocked (obj objTo : Obj) (w : World) : Locking Mutex World := do
  if obj = objTo then
    return w
  let contain ← linkedListAdd real (.contain objTo) objTo w.contain obj false .atTail
  let w ← addWeights obj fuel (some objTo)
    { w with
      contain
      inObj := Function.update w.inObj obj (some objTo)
      carriedBy := Function.update w.carriedBy obj none
      equippedBy := Function.update w.equippedBy obj none }
  readRoomFlags objTo w
  pure w

def objectPutInObject (obj objTo : Obj) (w : World) : Locking Mutex World := do
  let contain ← linkedListLock real (.contain objTo) objTo w.contain
  let w ← objectPutInObjectLocked real fuel obj objTo { w with contain }
  let contain ← linkedListUnlock real (.contain objTo) objTo w.contain
  pure { w with contain }

def objectTakeFromObject (obj : Obj) (locked : Bool) (w : World) : Locking Mutex World := do
  match w.inObj obj with
  | none => pure w
  | some objFrom =>
      if (w.carriedBy obj).isSome ∨ (w.equippedBy obj).isSome ∨ w.inRoom obj ≠ -1 then
        return w
      let contain ← linkedListRemove real (.contain objFrom) objFrom w.contain obj locked
      let (w, tmp) ← subtractWeights obj fuel objFrom { w with contain }
      let w := { w with
        inObj := Function.update w.inObj obj none
        carryWeight := match w.carriedBy tmp with
          | none => w.carryWeight
          | some ch => Function.update w.carryWeight ch (w.carryWeight ch - w.weight obj) }
      readRoomFlags objFrom w
      pure w

/-! ## Making and freeing -/

/-- `objectRead`: no object if the number has no index. -/
def objectRead (nr : ℤ) (w : World) : Locking Mutex (World × Option Obj) := do
  if w.indexes nr = false then
    return (w, none)
  let obj := w.nextObj
  let global ← linkedListAdd real (.index nr) nr (w.global.clear obj) obj false .atHead
  pure ({ w with
    contain := (w.contain.clear obj).create obj
    content := w.content.clear obj
    global
    inRoom := Function.update w.inRoom obj (-1)
    carriedBy := Function.update w.carriedBy obj none
    equippedBy := Function.update w.equippedBy obj none
    eqPos := Function.update w.eqPos obj (-1)
    inObj := Function.update w.inObj obj none
    nextContent := Function.update w.nextContent obj none
    weight := Function.update w.weight obj 0
    itemNumber := Function.update w.itemNumber obj nr
    index := Function.update w.index obj nr
    timer := Function.update w.timer obj 0
    costPerDay := Function.update w.costPerDay obj 0
    rare := Function.update w.rare obj false
    number := Function.update w.number nr (w.number nr + 1)
    objCount := w.objCount + 1
    live := {obj} ∪ w.live
    nextObj := w.nextObj + 1 }, some obj)

def objectFree (obj : Obj) (w : World) : Locking Mutex World := do
  linkedListDestroy real (.contain obj)
  pure { w with live := w.live.erase obj }

/-- The beginning of `objectExtractLocked`: the object leaves where it is.  The flag says whether
the list of its container is locked; an equipped object without a slot is not extracted. -/
def detach (obj : Obj) (locked : Bool) (w : World) : Locking Mutex (World × Bool × Bool) := do
  if w.inRoom obj ≠ -1 then
    let w ← objectTakeFromRoom real obj false w
    return (w, locked, true)
  if (w.carriedBy obj).isSome then
    let w ← objectTakeFromChar fuel obj w
    return (w, locked, true)
  match w.equippedBy obj with
  | some ch =>
      if -1 < w.eqPos obj then
        let slots := Function.update (w.equipment ch) (w.eqPos obj) none
        return ({ w with equipment := Function.update w.equipment ch slots }, locked, true)
      else
        return (w, locked, false)
  | none =>
      match w.inObj obj with
      | none => return (w, locked, true)
      | some objFrom =>
          let locked := linkedListIsLocked objFrom w.contain
          let contain ← lockUnless real (.contain objFrom) objFrom w.contain locked
          let contain ← linkedListRemove real (.contain objFrom) objFrom contain obj true
          let contain ← unlockUnless real (.contain objFrom) objFrom contain locked
          return ({ w with contain }, locked, true)

/-- The end of `objectExtractLocked`: the object leaves the list of its kind and is freed. -/
def discard (obj : Obj) (locked : Bool) (w : World) : Locking Mutex World := do
  if 0 ≤ w.itemNumber obj then
    let vnum := w.index obj
    let global ← linkedListRemove real (.index vnum) vnum w.global obj locked
    objectFree real obj { w with
      number := Function.update w.number vnum (w.number vnum - 1)
      global
      objCount := w.objCount - 1 }
  else objectFree real obj w

def objectExtractLocked : ℕ → Obj → Bool → World → Locking Mutex World
  | 0, _, _, _ => unfinished
  | fuel + 1, obj, locked, w => do
      let (w, locked, goesOn) ← detach real fuel obj locked w
      if goesOn then
        let contain ← linkedListLock real (.contain obj) obj w.contain
        let w ← eachItem (fun w ↦ w.contain.next)
          (fun item ↦ objectExtractLocked fuel item locked) fuel (contain.head obj)
          { w with contain }
        let contain ← linkedListUnlock real (.contain obj) obj w.contain
        discard real obj locked { w with contain }
      else pure w

def objectExtract (obj : Obj) (w : World) : Locking Mutex World :=
  objectExtractLocked real fuel obj false w

/-! ## Storing -/

/-- `contained_weight`. -/
def containedWeight (container : Obj) (w : World) : Locking Mutex (World × ℤ) := do
  let contain ← linkedListLock real (.contain container) container w.contain
  let rval ← eachItem (fun _ ↦ contain.next) (fun item rval ↦ pure (rval + w.weight item)) fuel
    (contain.head container) 0
  let contain ← linkedListUnlock real (.contain container) container contain
  pure ({ w with contain }, rval)

/-- `objectStoreList` with what it does for each object. -/
def storeEach (store : Obj → World × ℤ → Locking Mutex (World × ℤ)) (owner : Obj)
    (s : World × ℤ) : Locking Mutex (World × ℤ) := do
  let contain ← linkedListLock real (.contain owner) owner s.1.contain
  let s ← eachItem (fun s ↦ s.1.contain.next) store fuel (contain.head owner)
    ({ s.1 with contain }, s.2)
  let contain ← linkedListUnlock real (.contain owner) owner s.1.contain
  pure ({ s.1 with contain }, s.2)

/-- `OBJ_NOTIMER`. -/
def objNoTimer : ℤ := -7000000

/-- The number of the next item, with the weight of the contents taken off while the object is
saved. -/
def storeItem (obj : Obj) (s : World × ℤ) : Locking Mutex (World × ℤ) := do
  let w := s.1
  if (w.timer obj < 0 ∧ w.timer obj ≠ objNoTimer) ∨ w.costPerDay obj < 0 then
    return s
  if w.itemNumber obj = -1 then
    return s
  let (w, weight) ← containedWeight real fuel obj w
  let w := { w with weight := Function.update w.weight obj (w.weight obj - weight) }
  let w := { w with weight := Function.update w.weight obj (w.weight obj + weight) }
  pure (w, s.2 + 1)

/-- A rare object is put on the list of its kind, where it is already. -/
def countRare (obj : Obj) (w : World) : Locking Mutex World := do
  let vnum := w.index obj
  let global ← linkedListAdd real (.index vnum) vnum w.global obj false .atHead
  pure { w with
    global
    number := Function.update w.number vnum (w.number vnum + 1) }

/-- What `objectStore` does with `delete`. -/
def storeDelete (obj : Obj) (locked : Bool) (w : World) : Locking Mutex World := do
  let w ← (if (w.inObj obj).isSome then objectTakeFromObject real fuel obj locked w else pure w)
  let w ← (if w.rare obj then countRare real obj w else pure w)
  objectExtract real fuel obj w

def objectStore (delete : Bool) : ℕ → Bool → Obj → World × ℤ → Locking Mutex (World × ℤ)
  | 0, _, _, _ => unfinished
  | fuel + 1, locked, obj, s => do
      let s ← storeItem real fuel obj s
      let (contain, count) ← linkedListCount real (.contain obj) obj s.1.contain false
      let s := ({ s.1 with contain }, s.2)
      let s ← (if count ≠ 0 then
          storeEach real fuel (fun item ↦ objectStore delete fuel true item) obj s
        else pure s)
      if delete then
        let w ← storeDelete real fuel obj locked s.1
        pure (w, s.2)
      else pure s

/-- `objectStoreList` on the list of an object. -/
def objectStoreList (owner : Obj) (itemNum : ℤ) (delete : Bool) (w : World) :
    Locking Mutex (World × ℤ) :=
  storeEach real fuel (fun item ↦ objectStore real delete fuel true item) owner (w, itemNum)

/-! ## Cloning -/

def objectClone (obj : Obj) (w : World) : Locking Mutex (World × Obj) := do
  let (w, ocopy) ← objectRead real (w.itemNumber obj) w
  let ocopy ← follow ocopy
  pure (w, ocopy)

def objectCloneContainerLocked : ℕ → Obj → Obj → World → Locking Mutex World
  | 0, _, _, _ => unfinished
  | fuel + 1, toObj, obj, w =>
      forItems (fun w ↦ w.contain.next) (fun tmp w ↦ do
        let (w, ocopy) ← objectClone real tmp w
        let contain ← linkedListLock real (.contain tmp) tmp w.contain
        let w := { w with contain }
        let w ← (if (contain.head tmp).isSome then objectCloneContainerLocked fuel ocopy tmp w
          else pure w)
        let contain ← linkedListUnlock real (.contain tmp) tmp w.contain
        objectPutInObjectLocked real fuel ocopy toObj { w with contain })
        fuel (w.contain.head obj) w

def objectCloneContainer (toObj obj : Obj) (w : World) : Locking Mutex World := do
  let contain ← linkedListLock real (.contain toObj) toObj w.contain
  let contain ← linkedListLock real (.contain obj) obj contain
  let w ← objectCloneContainerLocked real fuel toObj obj { w with contain }
  let contain ← linkedListUnlock real (.contain obj) obj w.contain
  let contain ← linkedListUnlock real (.contain toObj) toObj contain
  pure { w with contain }

end Functions

end HavokMud.Placement
