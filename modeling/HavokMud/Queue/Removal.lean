import HavokMud.Queue.Flush

/-!
# Removing one item

`QueueRemoveItem` takes the head for the end where items are read and the tail for the end where
they are inserted.  It moves the tail back instead of forward, and the queue has one item more.
-/

namespace HavokMud.Queue

open Cyclic

variable {α : Type} {queue : QueueObject α} {items : List α} {index : UInt32} {j : ℕ}

/-- The slot behind the tail. -/
theorem QueueObject.Sized.toNat_previous (h : queue.Sized) :
    ((queue.tail - 1) &&& queue.numMask).toNat =
      (queue.tail.toNat + (queue.size - 1)) % queue.size := by
  have hbounds := h.bounds
  obtain ⟨k, hpos, hle, hsize⟩ := h.power
  have hdvd : queue.size ∣ 2 ^ 32 := by
    rw [hsize]
    exact pow_dvd_pow 2 (by omega)
  have hone : (1 : UInt32).toNat = 1 := rfl
  rw [h.toNat_and, UInt32.toNat_sub, hone, Nat.mod_mod_of_dvd _ hdvd]
  obtain ⟨m, hm⟩ := hdvd
  have hm' : m ≠ 0 := by
    rintro rfl
    omega
  obtain ⟨m, rfl⟩ := Nat.exists_eq_succ_of_ne_zero hm'
  have hsplit : 2 ^ 32 - 1 + queue.tail.toNat =
      queue.tail.toNat + (queue.size - 1) + queue.size * m := by
    rw [hm, Nat.mul_succ]
    omega
  rw [hsplit, Nat.add_mul_mod_self_left]

theorem count_queueConditionUpdate (queue : QueueObject α) :
    (queueConditionUpdate queue).1.count = queue.count := by
  unfold queueConditionUpdate
  dsimp only
  split_ifs <;> rfl

/-- The tail is moved back, whichever slots are moved. -/
theorem queueRemoveItem_ends (hindex : index ≠ queue.head) :
    (queueRemoveItem queue index).1.1.size = queue.size ∧
      (queueRemoveItem queue index).1.1.head = queue.head ∧
      (queueRemoveItem queue index).1.1.tail = (queue.tail - 1) &&& queue.numMask := by
  have hupdate (queue : QueueObject α) : (queueConditionUpdate queue).1.size = queue.size ∧
      (queueConditionUpdate queue).1.head = queue.head ∧
      (queueConditionUpdate queue).1.tail = queue.tail := by
    unfold queueConditionUpdate
    dsimp only
    split_ifs <;> exact ⟨rfl, rfl, rfl⟩
  unfold queueRemoveItem
  rw [if_neg hindex]
  by_cases htail : index = queue.tail
  · rw [if_pos htail]
    exact hupdate _
  · rw [if_neg htail]
    exact hupdate _

/-- There is one item more, or the full queue is empty. -/
theorem count_queueRemoveItem (h : queue.Sized) (hindex : index ≠ queue.head) :
    (queueRemoveItem queue index).1.1.count = (queue.count + 1) % queue.size := by
  obtain ⟨hsize, hhead, htail⟩ := queueRemoveItem_ends hindex
  have hbounds := h.bounds
  unfold QueueObject.count
  rw [hsize, hhead, htail, h.toNat_previous]
  apply distance_unique (Nat.mod_lt _ (by omega)) h.head (Nat.mod_lt _ (by omega))
  have hadd := add_distance h.tail h.head
  rw [← Nat.add_mod]
  calc
    _ = (queue.tail.toNat + distance queue.size queue.tail.toNat queue.head.toNat + queue.size) %
        queue.size := by
      congr 1
      omega
    _ = queue.head.toNat := by rw [Nat.add_mod_right, hadd]

/-- An item of a well-formed queue is removed, and the others stay as they are, exactly if the queue
has two slots. -/
theorem queueRemoveItem_removes_iff (h : Represents queue items) (hj : j < items.length)
    (hindex : index.toNat = (queue.tail.toNat + j) % queue.size) :
    Represents (queueRemoveItem queue index).1.1 (items.eraseIdx j) ↔ queue.size = 2 := by
  have hbounds := h.wf.bounds
  have hlt : queue.count < queue.size := distance_lt h.wf.head
  have hlength := h.length
  have hnot : index ≠ queue.head := by
    rintro rfl
    rw [← add_distance h.wf.tail h.wf.head] at hindex
    have hsame : queue.count = j := offset_inj hlt (by omega) hindex
    omega
  have hcount := count_queueRemoveItem h.wf.toSized hnot
  constructor
  · intro hremoved
    have hless := hremoved.length
    rw [hcount, List.length_eraseIdx_of_lt hj, hlength] at hless
    rcases Nat.lt_or_ge (queue.count + 1) queue.size with hroom | hfull
    · rw [Nat.mod_eq_of_lt hroom] at hless
      omega
    · have hsize : queue.count + 1 = queue.size := by omega
      rw [hsize, Nat.mod_self] at hless
      omega
  · intro hsize
    have hone : queue.count = 1 := by omega
    have hzero : j = 0 := by omega
    have hnil : items.eraseIdx j = [] := by
      rw [← List.length_eq_zero_iff, List.length_eraseIdx_of_lt hj]
      omega
    have htail : index = queue.tail := by
      rw [hzero, Nat.add_zero, Nat.mod_eq_of_lt h.wf.tail] at hindex
      exact UInt32.toNat_inj.mp hindex
    have hempty : (queueRemoveItem queue index).1.1.count = 0 := by
      rw [hcount, hone, hsize]
    rw [hnil]
    unfold queueRemoveItem at hempty ⊢
    rw [if_neg hnot, if_pos htail] at hempty ⊢
    rw [count_queueConditionUpdate] at hempty
    apply represents_update
    · refine ⟨h.wf.power, h.wf.mask, h.wf.head, ?_, ?_⟩
      · change ((queue.tail - 1) &&& queue.numMask).toNat < queue.size
        rw [h.wf.toSized.toNat_previous]
        exact Nat.mod_lt _ (by omega)
      · rw [List.length_set]
        exact h.wf.table
    · rw [hempty]
      rfl

/-- The item of a queue with two slots. -/
theorem queueRemoveItem_removes_iff_two : ∃ queue : QueueObject ℕ,
    Represents queue [7] ∧ Represents (queueRemoveItem queue queue.tail).1.1 [] := by
  obtain ⟨new, hcreate, hnew, -⟩ := @queueCreate_represents ℕ 2 (by decide)
  obtain rfl := Option.some.inj hcreate
  have hone := hnew.insertItem (by decide) 7
  have hindex := (Nat.mod_eq_of_lt hone.wf.tail).symm
  exact ⟨_, hone, (queueRemoveItem_removes_iff hone (j := 0) (by decide) hindex).mpr (by decide)⟩

/-- Two items are in a queue with four slots, and the first is removed. -/
theorem removed_item_leaves_more : ∃ queue : QueueObject ℕ, Represents queue [7, 8] ∧
    (queueRemoveItem queue queue.tail).1.1.count = 3 ∧
    ¬ Represents (queueRemoveItem queue queue.tail).1.1 [8] := by
  obtain ⟨new, hcreate, hnew, -⟩ := @queueCreate_represents ℕ 4 (by decide)
  obtain rfl := Option.some.inj hcreate
  have htwo := (hnew.insertItem (by decide) 7).insertItem (by decide) 8
  refine ⟨_, htwo, by decide, fun hremoved ↦ ?_⟩
  exact absurd hremoved.length (by decide)

end HavokMud.Queue
