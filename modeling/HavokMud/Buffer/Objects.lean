import Mathlib.Data.List.Basic

/-!
# Buffers

A buffer is written at its tail and read at its head.  It has no wrap-around: head and tail go back
to the start only when they meet.  Nothing waits for its conditions.
-/

namespace HavokMud.Buffer

/-- `BufferObject_t`. -/
structure BufferObject where
  size : UInt32
  head : UInt32
  tail : UInt32
  data : List UInt8
  full : Bool
  empty : Bool
deriving DecidableEq

/-- `BufferCreate`. -/
def bufferCreate (size : UInt32) : Option BufferObject :=
  if size = 0 then none
  else some {
    size := size
    head := 0
    tail := 0
    data := List.replicate size.toNat 0
    full := false
    empty := true }

/-- `BufferConditionUpdate`. -/
def bufferConditionUpdate (buffer : BufferObject) : BufferObject :=
  let buffer :=
    if buffer.head = buffer.tail then
      { buffer with
        empty := true
        head := 0
        tail := 0 }
    else { buffer with empty := false }
  { buffer with full := decide (buffer.tail ≥ buffer.size) }

/-- `BufferGetWrite`, as an index into the data. -/
def bufferGetWrite (buffer : BufferObject) : Option ℕ :=
  if buffer.full then none else some buffer.tail.toNat

/-- `BufferGetRead`, as an index into the data. -/
def bufferGetRead (buffer : BufferObject) : Option ℕ :=
  if buffer.empty then none else some buffer.head.toNat

/-- `BufferAvailWrite`. -/
def bufferAvailWrite (buffer : BufferObject) : UInt32 :=
  buffer.size - buffer.tail

/-- `BufferAvailRead`. -/
def bufferAvailRead (buffer : BufferObject) : UInt32 :=
  buffer.tail - buffer.head

/-- `BufferWroteBytes`. -/
def bufferWroteBytes (buffer : BufferObject) (count : UInt32) : BufferObject :=
  bufferConditionUpdate { buffer with tail := buffer.tail + count }

/-- `BufferReadBytes`. -/
def bufferReadBytes (buffer : BufferObject) (count : UInt32) : BufferObject :=
  bufferConditionUpdate { buffer with head := buffer.head + count }

/-- `BufferClear`. -/
def bufferClear (buffer : BufferObject) : BufferObject :=
  bufferConditionUpdate { buffer with
    head := 0
    tail := 0 }

/-- How `InputThread` takes all there is to read. -/
def takeInput (buffer : BufferObject) : Option (List UInt8 × BufferObject) :=
  let totalLen := bufferAvailRead buffer
  if totalLen = 0 then none
  else some ((buffer.data.drop ((bufferGetRead buffer).getD 0)).take totalLen.toNat,
    bufferReadBytes buffer totalLen)

/-- The bytes between head and tail. -/
def BufferObject.contents (buffer : BufferObject) : List UInt8 :=
  (buffer.data.drop buffer.head.toNat).take (buffer.tail.toNat - buffer.head.toNat)

/-! ## Well-formed buffers -/

structure BufferObject.Wf (buffer : BufferObject) : Prop where
  head : buffer.head ≤ buffer.tail
  tail : buffer.tail ≤ buffer.size
  empty : buffer.empty = true ↔ buffer.head = buffer.tail
  full : buffer.full = true ↔ buffer.size ≤ buffer.tail

section WellFormed

variable {buffer : BufferObject}

theorem bufferConditionUpdate_wf (hhead : buffer.head ≤ buffer.tail)
    (htail : buffer.tail ≤ buffer.size) : (bufferConditionUpdate buffer).Wf := by
  unfold bufferConditionUpdate
  dsimp only
  split_ifs with heq
  · exact ⟨UInt32.le_refl _, UInt32.le_iff_toNat_le.mpr (Nat.zero_le _), iff_of_true rfl rfl,
      decide_eq_true_iff⟩
  · exact ⟨hhead, htail, iff_of_false Bool.false_ne_true heq, decide_eq_true_iff⟩

theorem contents_bufferConditionUpdate (buffer : BufferObject) :
    (bufferConditionUpdate buffer).contents = buffer.contents := by
  unfold bufferConditionUpdate BufferObject.contents
  dsimp only
  split_ifs with heq
  · rw [heq, Nat.sub_self, Nat.sub_self, List.take_zero, List.take_zero]
  · rfl

theorem data_bufferConditionUpdate (buffer : BufferObject) :
    (bufferConditionUpdate buffer).data = buffer.data := by
  unfold bufferConditionUpdate
  dsimp only
  split_ifs <;> rfl

theorem size_bufferConditionUpdate (buffer : BufferObject) :
    (bufferConditionUpdate buffer).size = buffer.size := by
  unfold bufferConditionUpdate
  dsimp only
  split_ifs <;> rfl

end WellFormed

end HavokMud.Buffer
