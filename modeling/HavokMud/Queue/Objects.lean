import HavokMud.Cyclic.Windows
import Mathlib.Data.Nat.Log
import Mathlib.Order.Bounds.Basic

/-!
# Queues

A queue keeps its items in a ring of slots.  Items are inserted at the head and read from the tail,
and one slot stays free.  The flags are kept up to date by `QueueConditionUpdate`, which also
signals the conditions that came true.
-/

namespace HavokMud.Queue

open Cyclic

/-- `QueueObject_t`. -/
structure QueueObject (α : Type) where
  numElements : UInt32
  numMask : UInt32
  head : UInt32
  tail : UInt32
  itemTable : List (Option α)
  full : Bool
  empty : Bool
deriving DecidableEq

/-- The conditions that were signalled. -/
structure Signals where
  notFull : Bool
  notEmpty : Bool
deriving DecidableEq

section Operations

variable {α : Type}

/-- The loop of `QueueCreate`, where `1 << i` is an `int`. -/
def roundedShift (numElements : UInt32) : ℕ :=
  ((List.range 32).find? fun i ↦
    ¬ numElements.toNat > ((1#32 <<< i).signExtend 64).toNat).getD 32

/-- `QueueCreate`. -/
def queueCreate (numElements : UInt32) : Option (QueueObject α) :=
  if numElements = 0 then none
  else
    let i := roundedShift numElements
    let i := if i = 32 then 31 else i
    let numElements := UInt32.ofNat (2 ^ i)
    some {
      numElements := numElements
      numMask := numElements - 1
      head := 0
      tail := 0
      itemTable := List.replicate numElements.toNat none
      full := false
      empty := true }

/-- `QueueConditionUpdate`. -/
def queueConditionUpdate (queue : QueueObject α) : QueueObject α × Signals :=
  let queue' :=
    if queue.head = queue.tail then
      { queue with
        empty := true
        full := false }
    else if (queue.head + 1) &&& queue.numMask = queue.tail then
      { queue with
        empty := false
        full := true }
    else
      { queue with
        empty := false
        full := false }
  (queue', ⟨queue.full && !queue'.full, queue.empty && !queue'.empty⟩)

/-- `QueueEnqueueItem` of an item that is not NULL, past its wait. -/
def insertItem (queue : QueueObject α) (item : α) : QueueObject α × Signals :=
  queueConditionUpdate { queue with
    itemTable := queue.itemTable.set queue.head.toNat (some item)
    head := (queue.head + 1) &&& queue.numMask }

/-- A slot of the table. -/
def QueueObject.slot (queue : QueueObject α) (index : ℕ) : Option α :=
  queue.itemTable[index]?.join

/-- `QueueDequeueItem` past its wait, with the item. -/
def takeItem (queue : QueueObject α) : (QueueObject α × Signals) × Option α :=
  (queueConditionUpdate { queue with
    itemTable := queue.itemTable.set queue.tail.toNat none
    tail := (queue.tail + 1) &&& queue.numMask }, queue.slot queue.tail.toNat)

/-- `QueueClear`, with the items that it frees. -/
def queueClear (queue : QueueObject α) (freeItems : Bool) : (QueueObject α × Signals) × List α :=
  let table := if freeItems then List.replicate queue.numElements.toNat none else queue.itemTable
  (queueConditionUpdate { queue with
    itemTable := table
    head := 0
    tail := 0 }, if freeItems then queue.itemTable.filterMap id else [])

/-- `QueueUsed`. -/
def queueUsed (queue : QueueObject α) : UInt32 :=
  (queue.head + queue.numElements - queue.tail) &&& queue.numMask

end Operations

/-! ## Well-formed queues -/

section WellFormed

variable {α : Type} {queue : QueueObject α}

def QueueObject.size (queue : QueueObject α) : ℕ :=
  queue.numElements.toNat

/-- The number of items. -/
def QueueObject.count (queue : QueueObject α) : ℕ :=
  distance queue.size queue.tail.toNat queue.head.toNat

/-- The indexes are inside of the table, whose size is a power of two. -/
structure QueueObject.Sized (queue : QueueObject α) : Prop where
  power : ∃ k, 1 ≤ k ∧ k ≤ 31 ∧ queue.size = 2 ^ k
  mask : queue.numMask = queue.numElements - 1
  head : queue.head.toNat < queue.size
  tail : queue.tail.toNat < queue.size
  table : queue.itemTable.length = queue.size

/-- The flags are up to date. -/
structure QueueObject.Wf (queue : QueueObject α) : Prop extends queue.Sized where
  empty : queue.empty = true ↔ queue.count = 0
  full : queue.full = true ↔ queue.count + 1 = queue.size

theorem QueueObject.Sized.bounds (h : queue.Sized) : 2 ≤ queue.size ∧ queue.size ≤ 2 ^ 31 := by
  obtain ⟨k, hpos, hle, hsize⟩ := h.power
  rw [hsize]
  have htwo : 0 < 2 := by decide
  exact ⟨Nat.pow_le_pow_right htwo hpos, Nat.pow_le_pow_right htwo hle⟩

/-- The mask takes the remainder. -/
theorem QueueObject.Sized.toNat_and (h : queue.Sized) (x : UInt32) :
    (x &&& queue.numMask).toNat = x.toNat % queue.size := by
  obtain ⟨k, hpos, hle, hsize⟩ := h.power
  have hone : (1 : UInt32) ≤ queue.numElements := by
    rw [UInt32.le_iff_toNat_le]
    have hbounds := h.bounds.1
    change 1 ≤ queue.size
    omega
  rw [h.mask, UInt32.toNat_and, UInt32.toNat_sub_of_le _ _ hone]
  change x.toNat &&& (queue.size - 1) = _
  rw [hsize, Nat.and_two_pow_sub_one_eq_mod]

theorem QueueObject.Sized.toNat_next (h : queue.Sized) {x : UInt32} (hx : x.toNat < queue.size) :
    ((x + 1) &&& queue.numMask).toNat = (x.toNat + 1) % queue.size := by
  have hbounds := h.bounds.2
  rw [h.toNat_and, UInt32.toNat_add]
  change (x.toNat + 1) % 2 ^ 32 % queue.size = _
  rw [Nat.mod_eq_of_lt (by omega : x.toNat + 1 < 2 ^ 32)]

/-- Writing a slot of the table. -/
theorem slot_set {table : List (Option α)} {index : ℕ} (hindex : index < table.length)
    (item : Option α) : (fun k ↦ (table.set index item)[k]?.join) =
      Function.update (fun k ↦ table[k]?.join) index item := by
  funext k
  rcases eq_or_ne k index with rfl | hk
  · rw [Function.update_self, List.getElem?_set_self hindex, Option.join_some]
  · rw [Function.update_of_ne hk, List.getElem?_set_ne hk.symm]

theorem queueConditionUpdate_wf (h : queue.Sized) : (queueConditionUpdate queue).1.Wf := by
  have hbounds := h.bounds
  have hempty : queue.count = 0 ↔ queue.head = queue.tail := by
    unfold QueueObject.count
    rw [distance_eq_zero_iff h.tail h.head, UInt32.toNat_inj]
  have hfull : queue.count + 1 = queue.size ↔ (queue.head + 1) &&& queue.numMask = queue.tail := by
    rw [← UInt32.toNat_inj, h.toNat_next h.head]
    have hlt : queue.count < queue.size := distance_lt h.head
    have hadd : (queue.tail.toNat + queue.count) % queue.size = queue.head.toNat :=
      add_distance h.tail h.head
    constructor
    · intro hcount
      rw [← hadd, Nat.mod_add_mod, Nat.add_assoc, hcount, Nat.add_mod_right,
        Nat.mod_eq_of_lt h.tail]
    · intro htail
      by_contra hne
      have hnext : distance queue.size queue.tail.toNat ((queue.head.toNat + 1) % queue.size) =
          queue.count + 1 := distance_succ_stop h.tail h.head (by change queue.count + 1 < _; omega)
      rw [htail, (distance_eq_zero_iff h.tail h.tail).mpr rfl] at hnext
      omega
  unfold queueConditionUpdate
  dsimp only
  split_ifs with hhead hnext
  · exact ⟨⟨h.power, h.mask, h.head, h.tail, h.table⟩, iff_of_true rfl (hempty.mpr hhead),
      iff_of_false Bool.false_ne_true fun hcount ↦ by
        change queue.count + 1 = queue.size at hcount
        have hzero := hempty.mpr hhead
        omega⟩
  · exact ⟨⟨h.power, h.mask, h.head, h.tail, h.table⟩,
      iff_of_false Bool.false_ne_true fun hcount ↦ hhead (hempty.mp hcount),
      iff_of_true rfl (hfull.mpr hnext)⟩
  · exact ⟨⟨h.power, h.mask, h.head, h.tail, h.table⟩,
      iff_of_false Bool.false_ne_true fun hcount ↦ hhead (hempty.mp hcount),
      iff_of_false Bool.false_ne_true fun hcount ↦ hnext (hfull.mp hcount)⟩

theorem size_queueConditionUpdate (queue : QueueObject α) :
    (queueConditionUpdate queue).1.size = queue.size := by
  unfold queueConditionUpdate
  dsimp only
  split_ifs <;> rfl

/-! ## The items of a queue -/

/-- The slots from the tail up to the head hold the items. -/
structure Represents (queue : QueueObject α) (items : List α) : Prop where
  wf : queue.Wf
  items : items.map some = window queue.size queue.slot queue.tail.toNat queue.count

/-- Bringing the flags up to date. -/
theorem represents_update {items : List α} (h : queue.Sized)
    (hitems : items.map some = window queue.size queue.slot queue.tail.toNat queue.count) :
    Represents (queueConditionUpdate queue).1 items := by
  refine ⟨queueConditionUpdate_wf h, ?_⟩
  unfold queueConditionUpdate
  dsimp only
  split_ifs <;> exact hitems

theorem Represents.length {items : List α} (h : Represents queue items) :
    items.length = queue.count := by
  rw [← List.length_map (f := some), h.items, length_window]

/-! ## New queues -/

theorem find?_roundedShift (numElements : UInt32) :
    ∃ i, ((List.range 32).find? fun i ↦
      ¬ numElements.toNat > ((1#32 <<< i).signExtend 64).toNat) = some i := by
  rw [← Option.isSome_iff_exists, List.find?_isSome]
  refine ⟨31, List.mem_range.mpr (by decide), ?_⟩
  have hlt : numElements.toNat < 2 ^ 32 := numElements.toNat_lt
  have hshift : ((1#32 <<< 31).signExtend 64).toNat = 2 ^ 64 - 2 ^ 31 := by decide
  rw [decide_eq_true_eq, hshift]
  omega

/-- The size is never rounded to more than 2^31. -/
theorem roundedShift_le (numElements : UInt32) : roundedShift numElements ≤ 31 := by
  obtain ⟨i, hi⟩ := find?_roundedShift numElements
  unfold roundedShift
  rw [hi, Option.getD_some]
  have hrange := List.mem_range.mp (List.mem_of_find?_eq_some hi)
  omega

theorem roundedShift_pos {numElements : UInt32} (hge : 2 ≤ numElements.toNat) :
    1 ≤ roundedShift numElements := by
  obtain ⟨i, hi⟩ := find?_roundedShift numElements
  unfold roundedShift
  rw [hi, Option.getD_some]
  by_contra hzero
  obtain rfl : i = 0 := by omega
  have hnot := List.find?_some hi
  rw [decide_eq_true_eq] at hnot
  exact hnot hge

/-- A new queue with room for an item is empty. -/
theorem queueCreate_represents {numElements : UInt32} (hge : 2 ≤ numElements.toNat) :
    ∃ queue : QueueObject α, queueCreate numElements = some queue ∧ Represents queue [] ∧
      queue.size = 2 ^ roundedShift numElements := by
  set k := roundedShift numElements
  have hk : k ≤ 31 := roundedShift_le numElements
  have hpos : 1 ≤ k := roundedShift_pos hge
  have hpow : 2 ^ k ≤ 2 ^ 31 := Nat.pow_le_pow_right (by decide) hk
  have hne : numElements ≠ 0 := by
    rintro rfl
    exact absurd hge (by decide)
  let queue : QueueObject α := {
    numElements := UInt32.ofNat (2 ^ k)
    numMask := UInt32.ofNat (2 ^ k) - 1
    head := 0
    tail := 0
    itemTable := List.replicate (UInt32.ofNat (2 ^ k)).toNat none
    full := false
    empty := true }
  have hcreate : queueCreate numElements = some queue := by
    unfold queueCreate
    dsimp only
    rw [if_neg hne, if_neg (by omega : k ≠ 32)]
  have hsize : queue.size = 2 ^ k := UInt32.toNat_ofNat_of_lt' (by
    change 2 ^ k < 2 ^ 32
    omega)
  have htwo : 2 ≤ queue.size := by
    rw [hsize]
    exact Nat.pow_le_pow_right (by decide : 0 < 2) hpos
  have hlt : 0 < queue.size := by omega
  have hzero : queue.count = 0 := (distance_eq_zero_iff hlt hlt).mpr rfl
  have hsized : queue.Sized := ⟨⟨k, hpos, hk, hsize⟩, rfl, hlt, hlt, List.length_replicate⟩
  refine ⟨queue, hcreate, ⟨⟨hsized, iff_of_true rfl hzero, ?_⟩, ?_⟩, hsize⟩
  · apply iff_of_false Bool.false_ne_true
    omega
  · rw [hzero]
    rfl

end WellFormed

end HavokMud.Queue
