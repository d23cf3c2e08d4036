import HavokMud.Interaction.Locks
import HavokMud.LinkedList.Chains

/-!
# The doubly linked list

`linked_list.c`: an item knows the list that it is on, and a list has a mutex and a flag that tells
whether it is locked.  The items of one kind and the lists that they can be on are the records of
one heap.  The list and the item of a call are not NULL here.
-/

namespace HavokMud.LinkedList

open Interaction Locking

/-- The items and lists of one kind: `LinkedListItem_t` and `LinkedList_t`. -/
structure Heap (ι τ : Type) where
  prev : ι → Option ι
  next : ι → Option ι
  list : ι → Option τ
  head : τ → Option ι
  tail : τ → Option ι
  items : τ → ℤ
  locked : τ → Bool

/-- `LinkedListLoc_t`. -/
inductive Location where
  | atHead
  | atTail
deriving DecidableEq

variable {ι τ μ : Type} [DecidableEq ι] [DecidableEq τ] [DecidableEq μ]

namespace Heap

/-- `item->next->prev = item`, if there is a next item. -/
def fixNext (item : ι) (h : Heap ι τ) : Heap ι τ :=
  match h.next item with
  | none => h
  | some next => { h with prev := Function.update h.prev next (some item) }

/-- `item->prev->next = item`, if there is a previous item. -/
def fixPrev (item : ι) (h : Heap ι τ) : Heap ι τ :=
  match h.prev item with
  | none => h
  | some prev => { h with next := Function.update h.next prev (some item) }

/-- An empty list gets its head and its tail. -/
def fixEnds (list : τ) (item : ι) (h : Heap ι τ) : Heap ι τ :=
  { h with
    head := Function.update h.head list (some ((h.head list).getD item))
    tail := Function.update h.tail list (some ((h.tail list).getD item)) }

/-- What `LinkedListAdd` does between the lock and the unlock. -/
def add (list : τ) (item : ι) (location : Location) (h : Heap ι τ) : Heap ι τ :=
  let h := { h with list := Function.update h.list item (some list) }
  let h := match location with
    | .atHead =>
        { h with
          prev := Function.update h.prev item none
          next := Function.update h.next item (h.head list)
          head := Function.update h.head list (some item) }
    | .atTail =>
        { h with
          prev := Function.update h.prev item (h.tail list)
          next := Function.update h.next item none
          tail := Function.update h.tail list (some item) }
  let h := fixEnds list item (fixPrev item (fixNext item h))
  { h with items := Function.update h.items list (h.items list + 1) }

/-- `item->prev->next = item->next`, if there is a previous item. -/
def unlinkPrev (item : ι) (h : Heap ι τ) : Heap ι τ :=
  match h.prev item with
  | none => h
  | some prev => { h with next := Function.update h.next prev (h.next item) }

/-- `item->next->prev = item->prev`, if there is a next item. -/
def unlinkNext (item : ι) (h : Heap ι τ) : Heap ι τ :=
  match h.next item with
  | none => h
  | some next => { h with prev := Function.update h.prev next (h.prev item) }

/-- A list that begins or ends with the item begins or ends with its neighbour. -/
def unlinkEnds (list : τ) (item : ι) (h : Heap ι τ) : Heap ι τ :=
  { h with
    head := if h.head list = some item then Function.update h.head list (h.next item) else h.head
    tail := if h.tail list = some item then Function.update h.tail list (h.prev item) else h.tail }

/-- What `LinkedListRemove` does between the lock and the unlock. -/
def remove (list : τ) (item : ι) (h : Heap ι τ) : Heap ι τ :=
  let h := unlinkEnds list item (unlinkNext item (unlinkPrev item h))
  { h with
    list := Function.update h.list item none
    items := Function.update h.items list (h.items list - 1) }

/-- `LinkedListCreate`. -/
def create (list : τ) (h : Heap ι τ) : Heap ι τ :=
  { h with
    head := Function.update h.head list none
    tail := Function.update h.tail list none
    locked := Function.update h.locked list false
    items := Function.update h.items list 0 }

/-- An item is filled with zeros. -/
def clear (item : ι) (h : Heap ι τ) : Heap ι τ :=
  { h with
    prev := Function.update h.prev item none
    next := Function.update h.next item none
    list := Function.update h.list item none }

/-- The flag of a list is set. -/
def setLocked (list : τ) (flag : Bool) (h : Heap ι τ) : Heap ι τ :=
  { h with locked := Function.update h.locked list flag }

end Heap

section Calls

variable (real : Bool) (m : μ) (list : τ) (h : Heap ι τ)

def linkedListLock : Locking μ (Heap ι τ) := do
  acquire real m
  pure (h.setLocked list true)

def linkedListUnlock : Locking μ (Heap ι τ) := do
  release real m
  pure (h.setLocked list false)

/-- `LinkedListLock` unless the caller has locked the list. -/
def lockUnless (locked : Bool) : Locking μ (Heap ι τ) :=
  if locked then pure h else linkedListLock real m list h

/-- `LinkedListUnlock` unless the caller has locked the list. -/
def unlockUnless (locked : Bool) : Locking μ (Heap ι τ) :=
  if locked then pure h else linkedListUnlock real m list h

def linkedListIsLocked : Bool :=
  h.locked list

def linkedListAdd (item : ι) (locked : Bool) (location : Location) : Locking μ (Heap ι τ) := do
  let h ← lockUnless real m list h locked
  let h := h.add list item location
  unlockUnless real m list h locked

def linkedListRemove (item : ι) (locked : Bool) : Locking μ (Heap ι τ) := do
  if h.list item ≠ some list then
    return h -- the item is not on the list
  let h ← lockUnless real m list h locked
  let h := h.remove list item
  unlockUnless real m list h locked

def linkedListCount (locked : Bool) : Locking μ (Heap ι τ × ℤ) := do
  let h ← lockUnless real m list h locked
  let count := h.items list
  let h ← unlockUnless real m list h locked
  pure (h, count)

/-- What `LinkedListDestroy` does to the mutex. -/
def linkedListDestroy : Locking μ Unit :=
  release real m

end Calls

end HavokMud.LinkedList
