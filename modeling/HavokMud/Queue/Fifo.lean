import HavokMud.Interaction.Simulation
import HavokMud.Queue.Objects

/-!
# A queue is a bounded list

Whatever is inserted, taken and cleared, a queue answers as a list of bounded length does, of which
items are taken in the order in which they were inserted.
-/

namespace HavokMud.Queue

open Cyclic Interaction

/-- The calls of one queue. -/
inductive Command (α : Type)
  | enqueue (item : α)
  | dequeue
  | clear (freeItems : Bool)

/-! ## The bounded list -/

/-- What a list of bounded length does.  Nothing is inserted into a full list or taken from an empty
one. -/
def Fifo.exec {α : Type} (capacity : ℕ) (items : List α) :
    Command α → Option (List α × Option α)
  | .enqueue item => if items.length < capacity then some (items ++ [item], none) else none
  | .dequeue =>
      match items with
      | [] => none
      | item :: rest => some (rest, some item)
  | .clear _ => some ([], none)

section Queue

variable {α : Type} {queue : QueueObject α} {items : List α}

/-- What a queue does, where it does not wait. -/
def QueueObject.exec (queue : QueueObject α) : Command α → Option (QueueObject α × Option α)
  | .enqueue item => if queue.full then none else some ((insertItem queue item).1, none)
  | .dequeue => if queue.empty then none else some ((takeItem queue).1.1, (takeItem queue).2)
  | .clear freeItems => some ((queueClear queue freeItems).1.1, none)

/-! ## The operations -/

theorem Represents.empty_iff (h : Represents queue items) : queue.empty = true ↔ items = [] := by
  rw [h.wf.empty, ← h.length, List.length_eq_zero_iff]

theorem Represents.full_iff (h : Represents queue items) :
    queue.full = true ↔ items.length = queue.size - 1 := by
  have hbounds := h.wf.bounds.1
  rw [h.wf.full, ← h.length]
  omega

theorem Represents.insertItem (h : Represents queue items) (hfull : queue.full ≠ true) (item : α) :
    Represents (insertItem queue item).1 (items ++ [item]) := by
  have hcount : queue.count + 1 < queue.size := by
    have hlt : queue.count < queue.size := distance_lt h.wf.head
    have hne : queue.count + 1 ≠ queue.size := fun hcount ↦ hfull (h.wf.full.mpr hcount)
    omega
  set queue' : QueueObject α := { queue with
    itemTable := queue.itemTable.set queue.head.toNat (some item)
    head := (queue.head + 1) &&& queue.numMask }
  have hhead : queue'.head.toNat = (queue.head.toNat + 1) % queue.size := h.wf.toNat_next h.wf.head
  have hsized : queue'.Sized := by
    refine ⟨h.wf.power, h.wf.mask, ?_, h.wf.tail, ?_⟩
    · rw [hhead]
      exact Nat.mod_lt _ (by omega)
    · rw [List.length_set]
      exact h.wf.table
  have hslot : queue'.slot = Function.update queue.slot queue.head.toNat (some item) :=
    slot_set (h.wf.table ▸ h.wf.head) (some item)
  have hcount' : queue'.count = queue.count + 1 := by
    unfold QueueObject.count
    rw [hhead]
    exact distance_succ_stop h.wf.tail h.wf.head hcount
  apply represents_update hsized
  rw [List.map_append, h.items, hcount', hslot]
  change _ = window queue.size _ queue.tail.toNat _
  have hadd : (queue.tail.toNat + queue.count) % queue.size = queue.head.toNat :=
    add_distance h.wf.tail h.wf.head
  rw [window_succ, hadd, Function.update_self, ← hadd, window_update (by omega)]
  rfl

theorem Represents.takeItem {item : α} (h : Represents queue (item :: items)) :
    Represents (takeItem queue).1.1 items ∧ (takeItem queue).2 = some item := by
  have hlength : items.length + 1 = queue.count := h.length
  have hlt : queue.count < queue.size := distance_lt h.wf.head
  have hitems := h.items
  rw [← hlength, window_cons, List.map_cons, Nat.mod_eq_of_lt h.wf.tail] at hitems
  obtain ⟨hfirst, hrest⟩ := List.cons.inj hitems
  set queue' : QueueObject α := { queue with
    itemTable := queue.itemTable.set queue.tail.toNat none
    tail := (queue.tail + 1) &&& queue.numMask }
  have htail : queue'.tail.toNat = (queue.tail.toNat + 1) % queue.size := h.wf.toNat_next h.wf.tail
  have hsized : queue'.Sized := by
    refine ⟨h.wf.power, h.wf.mask, h.wf.head, ?_, ?_⟩
    · rw [htail]
      exact Nat.mod_lt _ (by omega)
    · rw [List.length_set]
      exact h.wf.table
  have hslot : queue'.slot = Function.update queue.slot queue.tail.toNat none :=
    slot_set (h.wf.table ▸ h.wf.tail) none
  have hcount' : queue'.count + 1 = queue.count := by
    unfold QueueObject.count
    rw [htail]
    exact distance_succ_start h.wf.tail h.wf.head (by change queue.count ≠ 0; omega)
  refine ⟨?_, hfirst.symm⟩
  apply represents_update hsized
  rw [hrest, hslot, htail]
  change _ = window queue.size _ ((queue.tail.toNat + 1) % queue.size) queue'.count
  rw [window_mod, window_update_before h.wf.tail (by omega)]
  congr 1
  omega

theorem Represents.queueClear (h : queue.Wf) (freeItems : Bool) :
    Represents (queueClear queue freeItems).1.1 [] := by
  have hbounds := h.bounds.1
  apply represents_update
  · refine ⟨h.power, h.mask, ?_, ?_, ?_⟩
    · change 0 < queue.size
      omega
    · change 0 < queue.size
      omega
    · dsimp only
      split_ifs
      · rw [List.length_replicate]
        rfl
      · exact h.table
  · have hzero : distance queue.size 0 0 = 0 :=
      (distance_eq_zero_iff (by omega) (by omega)).mpr rfl
    unfold QueueObject.count
    change _ = window _ _ _ (distance queue.size 0 0)
    rw [hzero]
    rfl

/-- A queue of a size that holds these items. -/
def Holds (size : ℕ) (queue : QueueObject α) (items : List α) : Prop :=
  Represents queue items ∧ queue.size = size

/-- One command. -/
theorem Holds.exec {size : ℕ} (h : Holds size queue items) (command : Command α) :
    Matches (Holds size) (queue.exec command) (Fifo.exec (size - 1) items command) := by
  obtain ⟨hqueue, rfl⟩ := h
  have hsize : ∀ queue' : QueueObject α, queue'.size = queue.size →
      (queueConditionUpdate queue').1.size = queue.size := fun queue' hqueue' ↦
    (size_queueConditionUpdate queue').trans hqueue'
  cases command with
  | enqueue item =>
      unfold QueueObject.exec Fifo.exec
      dsimp only
      have hlt : items.length < queue.size - 1 ↔ queue.full ≠ true := by
        have hcount : queue.count < queue.size := distance_lt hqueue.wf.head
        have hlength := hqueue.length
        rw [Ne, hqueue.full_iff]
        omega
      by_cases hfull : queue.full = true
      · rw [if_pos hfull, if_neg (fun hroom ↦ hlt.mp hroom hfull)]
        exact .none
      · rw [if_neg hfull, if_pos (hlt.mpr hfull)]
        exact .some ⟨⟨hqueue.insertItem hfull item, hsize _ rfl⟩, rfl⟩
  | dequeue =>
      unfold QueueObject.exec Fifo.exec
      dsimp only
      cases items with
      | nil =>
          rw [if_pos (hqueue.empty_iff.mpr rfl)]
          exact .none
      | cons item rest =>
          rw [if_neg (fun hempty ↦ List.cons_ne_nil item rest (hqueue.empty_iff.mp hempty))]
          exact .some ⟨⟨hqueue.takeItem.1, hsize _ rfl⟩, hqueue.takeItem.2⟩
  | clear freeItems => exact .some ⟨⟨.queueClear hqueue.wf freeItems, hsize _ rfl⟩, rfl⟩

/-- What is seen of a queue that holds at most so many items. -/
structure Shows (capacity : ℕ) (queue : QueueObject α) (items : List α) : Prop where
  used : (queueUsed queue).toNat = items.length
  empty : queue.empty = true ↔ items = []
  full : queue.full = true ↔ items.length = capacity

end Queue

end HavokMud.Queue
