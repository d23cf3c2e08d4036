import HavokMud.Queue.Fifo

/-!
# Flushing a player

`FlushQueue` is to remove the items of a player from a queue.  Items are put in at the head and
taken out at the tail, but it goes from the head to the tail, over the slots that are free, and
finds nothing there.
-/

namespace HavokMud.Queue

open Cyclic Interaction

/-! ## Removing an item -/

section Remove

variable {α : Type}

/-- `memmove` of some slots of a table down by one. -/
def moveDown (table : List (Option α)) (index count : ℕ) : List (Option α) :=
  table.take index ++ ((table.drop (index + 1)).take count ++ table.drop (index + count))

/-- `QueueRemoveItem`, with the index that it returns. -/
def queueRemoveItem (queue : QueueObject α) (index : UInt32) :
    (QueueObject α × Signals) × UInt32 :=
  if index = queue.head then
    (queueConditionUpdate { queue with
      itemTable := queue.itemTable.set queue.head.toNat none
      head := (queue.head + 1) &&& queue.numMask }, index)
  else if index = queue.tail then
    (queueConditionUpdate { queue with
      itemTable := queue.itemTable.set queue.tail.toNat none
      tail := (queue.tail - 1) &&& queue.numMask }, (index - 1) &&& queue.numMask)
  else
    let table :=
      if queue.tail < index then
        -- the tail is wrapped
        let table :=
          if index ≠ queue.numElements - 1 then
            moveDown queue.itemTable index.toNat (queue.numElements - index - 1).toNat
          else queue.itemTable
        let table := table.set (queue.numElements - 1).toNat (table[0]?.join)
        if queue.tail ≠ 0 then moveDown table 0 queue.tail.toNat else table
      else moveDown queue.itemTable index.toNat (queue.tail - index).toNat
    (queueConditionUpdate { queue with
      itemTable := table.set queue.tail.toNat none
      tail := (queue.tail - 1) &&& queue.numMask }, (index - 1) &&& queue.numMask)

end Remove

/-! ## Items of players -/

/-- `InputStateType_t`. -/
inductive InputStateType
  | initial | avail
deriving DecidableEq

/-- `InputStateItem_t`. -/
structure InputStateItem (π : Type) where
  type : InputStateType
  player : π
  line : Option (List UInt8)
deriving DecidableEq

section Flush

variable {π : Type} [DecidableEq π]

/-- The loop of `FlushQueue`, with the items that it frees. -/
def flushLoop (player : π) : ℕ → QueueObject (InputStateItem π) → UInt32 →
    Option (QueueObject (InputStateItem π) × List (InputStateItem π))
  | 0, _, _ => none
  | fuel + 1, queue, i =>
      if i = queue.tail then some (queue, [])
      else
        match queue.slot i.toNat with
        | none => flushLoop player fuel queue ((i + 1) &&& queue.numMask)
        | some item =>
            if item.player = player then
              let removed := queueRemoveItem queue i
              (flushLoop player fuel removed.1.1 ((removed.2 + 1) &&& queue.numMask)).map
                fun result ↦ (result.1, item :: result.2)
            else flushLoop player fuel queue ((i + 1) &&& queue.numMask)

/-- `FlushQueue`. -/
def flushQueue (fuel : ℕ) (queue : QueueObject (InputStateItem π)) (player : π) :
    Option (QueueObject (InputStateItem π) × List (InputStateItem π)) :=
  flushLoop player fuel queue queue.head

/-- What is left of the handling queue of a player when `InputThread` has taken
`CONN_DELETE_CONNECT`. -/
def deleteConnect (fuel : ℕ) (handlingQ : QueueObject (InputStateItem π)) (player : π) :
    Option (QueueObject (InputStateItem π)) :=
  (flushQueue fuel handlingQ player).map Prod.fst

end Flush

/-! ## Free slots -/

section Clean

variable {α : Type} {queue queue' : QueueObject α} {items : List α}

/-- The slots from the head up to the tail are NULL. -/
def QueueObject.Clean (queue : QueueObject α) : Prop :=
  ∀ k, queue.count ≤ k → k < queue.size → queue.slot ((queue.tail.toNat + k) % queue.size) = none

theorem clean_update (h : queue.Clean) : (queueConditionUpdate queue).1.Clean := by
  unfold queueConditionUpdate
  dsimp only
  split_ifs <;> exact h

theorem clean_of_slots (h : ∀ k, queue.slot k = none) : queue.Clean := fun _ _ _ ↦ h _

theorem clean_insertItem (h : Represents queue items) (hclean : queue.Clean)
    (hfull : queue.full ≠ true) (item : α) : (insertItem queue item).1.Clean := by
  apply clean_update
  set queue' : QueueObject α := { queue with
    itemTable := queue.itemTable.set queue.head.toNat (some item)
    head := (queue.head + 1) &&& queue.numMask }
  have hlt : queue.count < queue.size := distance_lt h.wf.head
  have hne : queue.count + 1 ≠ queue.size := fun hcount ↦ hfull (h.wf.full.mpr hcount)
  have hslot : queue'.slot = Function.update queue.slot queue.head.toNat (some item) :=
    slot_set (h.wf.table ▸ h.wf.head) (some item)
  have hcount : queue'.count = queue.count + 1 := by
    unfold QueueObject.count
    have hhead : queue'.head.toNat = (queue.head.toNat + 1) % queue.size :=
      h.wf.toNat_next h.wf.head
    rw [hhead]
    apply distance_succ_stop h.wf.tail h.wf.head
    change queue.count + 1 < queue.size
    omega
  have hadd : (queue.tail.toNat + queue.count) % queue.size = queue.head.toNat :=
    add_distance h.wf.tail h.wf.head
  intro k hk hk'
  rw [hcount] at hk
  change k < queue.size at hk'
  change queue'.slot ((queue.tail.toNat + k) % queue.size) = none
  rw [hslot, Function.update_of_ne]
  · exact hclean k (by omega) hk'
  · rw [← hadd]
    intro heq
    have hsame := offset_inj hk' hlt heq
    omega

theorem clean_takeItem {item : α} (h : Represents queue (item :: items)) (hclean : queue.Clean) :
    (takeItem queue).1.1.Clean := by
  apply clean_update
  set queue' : QueueObject α := { queue with
    itemTable := queue.itemTable.set queue.tail.toNat none
    tail := (queue.tail + 1) &&& queue.numMask }
  have hlength : items.length + 1 = queue.count := h.length
  have hslot : queue'.slot = Function.update queue.slot queue.tail.toNat none :=
    slot_set (h.wf.table ▸ h.wf.tail) none
  have htail : queue'.tail.toNat = (queue.tail.toNat + 1) % queue.size := h.wf.toNat_next h.wf.tail
  have hcount : queue'.count + 1 = queue.count := by
    unfold QueueObject.count
    rw [htail]
    apply distance_succ_start h.wf.tail h.wf.head
    change queue.count ≠ 0
    omega
  intro k hk hk'
  change k < queue.size at hk'
  change queue'.slot ((queue'.tail.toNat + k) % queue.size) = none
  rw [hslot, htail, Nat.mod_add_mod, Nat.add_assoc]
  by_cases hlast : 1 + k = queue.size
  · rw [hlast, Nat.add_mod_right, Nat.mod_eq_of_lt h.wf.tail, Function.update_self]
  · have hnone := hclean (1 + k) (by omega) (by omega)
    rcases eq_or_ne ((queue.tail.toNat + (1 + k)) % queue.size) queue.tail.toNat with heq | hne
    · rw [heq, Function.update_self]
    · rw [Function.update_of_ne hne]
      exact hnone

theorem clean_queueClear (queue : QueueObject α) : (queueClear queue true).1.1.Clean := by
  apply clean_update
  apply clean_of_slots
  intro k
  change (List.replicate queue.numElements.toNat none)[k]?.join = none
  rw [List.getElem?_replicate]
  split_ifs <;> rfl

/-- A command that does not leave items behind. -/
def Command.frees : Command α → Bool
  | .clear freeItems => freeItems
  | _ => true

theorem clean_exec {command : Command α} {out : Option α} (h : Represents queue items)
    (hclean : queue.Clean) (hfrees : command.frees = true)
    (hexec : queue.exec command = some (queue', out)) : queue'.Clean := by
  cases command with
  | enqueue item =>
      unfold QueueObject.exec at hexec
      dsimp only at hexec
      split_ifs at hexec with hfull
      obtain ⟨rfl, -⟩ := Prod.mk.inj (Option.some.inj hexec)
      exact clean_insertItem h hclean hfull item
  | dequeue =>
      unfold QueueObject.exec at hexec
      dsimp only at hexec
      split_ifs at hexec with hempty
      obtain ⟨rfl, -⟩ := Prod.mk.inj (Option.some.inj hexec)
      cases items with
      | nil => exact absurd (h.empty_iff.mpr rfl) hempty
      | cons item rest => exact clean_takeItem h hclean
  | clear freeItems =>
      obtain rfl : freeItems = true := hfrees
      obtain ⟨rfl, -⟩ := Prod.mk.inj (Option.some.inj hexec)
      exact clean_queueClear queue

/-- A queue has one list of items. -/
theorem Represents.unique {items' : List α} (h : Represents queue items)
    (h' : Represents queue items') : items = items' :=
  List.map_injective_iff.mpr (Option.some_injective _) (h.items.trans h'.items.symm)

/-- A queue of a known size whose free slots are NULL. -/
def Tidy (size : ℕ) (queue : QueueObject α) : Prop :=
  queue.Clean ∧ ∃ items, Holds size queue items

theorem tidy_exec {size : ℕ} {command : Command α} {out : Option α} (h : Tidy size queue)
    (hfrees : command.frees = true) (hexec : queue.exec command = some (queue', out)) :
    Tidy size queue' := by
  obtain ⟨hclean, items, hholds⟩ := h
  refine ⟨clean_exec hholds.1 hclean hfrees hexec, ?_⟩
  have hmatches := hholds.exec command
  rw [hexec] at hmatches
  generalize Fifo.exec (size - 1) items command = result at hmatches
  cases hmatches with
  | some hboth => exact ⟨_, hboth.1⟩

theorem clean_queueCreate {numElements : UInt32} (hcreate : queueCreate numElements = some queue) :
    queue.Clean := by
  apply clean_of_slots
  intro k
  unfold queueCreate at hcreate
  split_ifs at hcreate
  obtain rfl := Option.some.inj hcreate
  unfold QueueObject.slot
  dsimp only
  rw [List.getElem?_replicate]
  split_ifs <;> rfl

/-- The free slots of a queue are NULL, whatever is done with it. -/
theorem tidy_runAll {numElements : UInt32} (hge : 2 ≤ numElements.toNat)
    (hcreate : queueCreate numElements = some queue) {commands : List (Command α)}
    (hfrees : ∀ command ∈ commands, command.frees = true) {outs : List (Option α)}
    (hrun : runAll QueueObject.exec queue commands = some (queue', outs)) :
    Tidy queue.size queue' := by
  have hnew : Tidy queue.size queue := by
    obtain ⟨queue₀, hcreate₀, hrepresents, -⟩ := @queueCreate_represents α numElements hge
    obtain rfl := Option.some.inj (hcreate.symm.trans hcreate₀)
    exact ⟨clean_queueCreate hcreate, [], hrepresents, rfl⟩
  generalize queue.size = size at hnew ⊢
  clear hcreate
  -- on the commands: each of them leaves the queue tidy
  induction commands generalizing queue outs with
  | nil =>
      obtain ⟨rfl, -⟩ := Prod.mk.inj (Option.some.inj hrun)
      exact hnew
  | cons command rest ih =>
      obtain ⟨hfirst, hrest⟩ := List.forall_mem_cons.mp hfrees
      obtain ⟨⟨queue₁, out⟩, hexec, hafter⟩ := Option.bind_eq_some_iff.mp hrun
      obtain ⟨⟨queue₂, outs₂⟩, hrun₂, hsame⟩ := Option.map_eq_some_iff.mp hafter
      obtain ⟨rfl, -⟩ := Prod.mk.inj hsame
      exact ih hrest hrun₂ (tidy_exec hnew hfirst hexec)

/-- A queue with one item in it. -/
theorem exists_represents_one (item : α) :
    ∃ queue : QueueObject α, Represents queue [item] ∧ queue.Clean := by
  obtain ⟨queue, hcreate, hnew, -⟩ := @queueCreate_represents α 3 (by decide)
  have hfull : queue.full ≠ true := by
    obtain rfl := Option.some.inj hcreate
    exact Bool.false_ne_true
  exact ⟨(insertItem queue item).1, hnew.insertItem hfull item,
    clean_insertItem hnew (clean_queueCreate hcreate) hfull item⟩

end Clean

/-! ## The loop -/

section Loop

variable {π : Type} [DecidableEq π] {queue : QueueObject (InputStateItem π)}
  {items : List (InputStateItem π)} {player : π}

/-- The loop goes over the free slots and leaves them as they are. -/
theorem flushLoop_eq (h : Represents queue items) (hclean : queue.Clean) {k : ℕ}
    (hk : queue.count ≤ k) (hk' : k ≤ queue.size) {i : UInt32}
    (hi : i.toNat = (queue.tail.toNat + k) % queue.size) {fuel : ℕ} :
    (flushLoop player fuel queue i = none ∨ flushLoop player fuel queue i = some (queue, [])) ∧
      (queue.size < fuel + k → flushLoop player fuel queue i = some (queue, [])) := by
  induction fuel generalizing k i with
  | zero => exact ⟨.inl rfl, fun hlt ↦ by omega⟩
  | succ fuel ih =>
      unfold flushLoop
      by_cases htail : i = queue.tail
      · rw [if_pos htail]
        exact ⟨.inr rfl, fun _ ↦ rfl⟩
      · have hlt : k < queue.size := by
          rcases Nat.lt_or_ge k queue.size with hlt | hge
          · exact hlt
          · obtain rfl : k = queue.size := by omega
            rw [Nat.add_mod_right, Nat.mod_eq_of_lt h.wf.tail, UInt32.toNat_inj] at hi
            exact absurd hi htail
        have hslot : queue.slot i.toNat = none := by
          rw [hi]
          exact hclean k hk hlt
        have hbound : i.toNat < queue.size := by
          rw [hi]
          exact Nat.mod_lt _ (by omega)
        have hnext : ((i + 1) &&& queue.numMask).toNat =
            (queue.tail.toNat + (k + 1)) % queue.size := by
          rw [h.wf.toNat_next hbound, hi, Nat.mod_add_mod, Nat.add_assoc]
        rw [if_neg htail, hslot]
        obtain ⟨hreturns, henough⟩ := @ih (k + 1) (by omega) (by omega) _ hnext
        exact ⟨hreturns, fun hfuel ↦ henough (by omega)⟩

theorem flushQueue_cases (h : Represents queue items) (hclean : queue.Clean) (player : π)
    (fuel : ℕ) :
    (flushQueue fuel queue player = none ∨ flushQueue fuel queue player = some (queue, [])) ∧
      (queue.size < fuel → flushQueue fuel queue player = some (queue, [])) := by
  have hlt : queue.count < queue.size := distance_lt h.wf.head
  have hhead : queue.head.toNat = (queue.tail.toNat + queue.count) % queue.size :=
    (add_distance h.wf.tail h.wf.head).symm
  obtain ⟨hreturns, henough⟩ := flushLoop_eq h hclean le_rfl hlt.le hhead
  exact ⟨hreturns, fun hfuel ↦ henough (by omega)⟩

/-- `FlushQueue` returns with the queue as it was and frees nothing, so it flushes a player, and no
item of a player who is deleted is left, exactly if there was none before. -/
theorem flushQueue_flushes_iff (h : Represents queue items) (hclean : queue.Clean) (player : π) :
    (∀ fuel, queue.size < fuel → flushQueue fuel queue player = some (queue, [])) ∧
    ((∃ fuel queue' freed, flushQueue fuel queue player = some (queue', freed) ∧
        Represents queue' (items.filter fun item ↦ item.player ≠ player) ∧
        freed.Perm (items.filter fun item ↦ item.player = player)) ↔
      ∀ item ∈ items, item.player ≠ player) ∧
    ((∀ fuel queue' items', deleteConnect fuel queue player = some queue' →
        Represents queue' items' → ∀ item ∈ items', item.player ≠ player) ↔
      ∀ item ∈ items, item.player ≠ player) := by
  have hreturns : ∀ fuel queue' freed, flushQueue fuel queue player = some (queue', freed) →
      queue' = queue := by
    intro fuel queue' freed hflush
    rcases (flushQueue_cases h hclean player fuel).1 with hnone | hsome
    · rw [hnone] at hflush
      cases hflush
    · rw [hsome] at hflush
      exact (Prod.mk.inj (Option.some.inj hflush)).1.symm
  have henough := (flushQueue_cases h hclean player (queue.size + 1)).2 (Nat.lt_succ_self _)
  refine ⟨fun fuel ↦ (flushQueue_cases h hclean player fuel).2, ⟨?_, ?_⟩, ⟨?_, ?_⟩⟩
  · rintro ⟨fuel, queue', freed, hflush, hrepresents, -⟩ item hitem
    obtain rfl := hreturns fuel queue' freed hflush
    rw [h.unique hrepresents] at hitem
    exact of_decide_eq_true (List.mem_filter.mp hitem).2
  · intro hall
    have hothers : items.filter (fun item ↦ item.player ≠ player) = items :=
      List.filter_eq_self.mpr fun item hitem ↦ decide_eq_true (hall item hitem)
    have hnone : items.filter (fun item ↦ item.player = player) = [] :=
      List.filter_eq_nil_iff.mpr fun item hitem hplayer ↦
        hall item hitem (of_decide_eq_true hplayer)
    refine ⟨queue.size + 1, queue, [], henough, ?_, ?_⟩
    · rw [hothers]
      exact h
    · rw [hnone]
  · intro hall
    refine hall (queue.size + 1) queue items ?_ h
    unfold deleteConnect
    rw [henough]
    rfl
  · intro hall fuel queue' items' hdelete hrepresents
    obtain ⟨⟨queue₁, freed⟩, hflush, rfl⟩ := Option.map_eq_some_iff.mp hdelete
    obtain rfl := hreturns fuel queue₁ freed hflush
    rw [← h.unique hrepresents]
    exact hall

/-- An item of another player. -/
theorem flushQueue_flushes_iff_other : ∃ queue : QueueObject (InputStateItem ℕ),
    Represents queue [⟨.initial, 1, none⟩] ∧ queue.Clean ∧
    ∃ fuel queue' freed, flushQueue fuel queue 2 = some (queue', freed) ∧
      Represents queue' [⟨.initial, 1, none⟩] ∧ freed.Perm [] := by
  obtain ⟨queue, hone, hclean⟩ := exists_represents_one (⟨.initial, 1, none⟩ : InputStateItem ℕ)
  obtain ⟨-, hflush, -⟩ := flushQueue_flushes_iff hone hclean 2
  exact ⟨queue, hone, hclean, hflush.mpr (by decide)⟩

/-- The item of a player who is deleted stays in the queue. -/
theorem flush_leaves_item : ∃ queue : QueueObject (InputStateItem ℕ),
    Represents queue [⟨.initial, 1, none⟩] ∧ queue.Clean ∧
    (∃ fuel, deleteConnect fuel queue 1 = some queue) ∧
    ¬ ∃ fuel queue' freed, flushQueue fuel queue 1 = some (queue', freed) ∧
      Represents queue' [] := by
  obtain ⟨queue, hone, hclean⟩ := exists_represents_one (⟨.initial, 1, none⟩ : InputStateItem ℕ)
  refine ⟨queue, hone, hclean, ⟨queue.size + 1, ?_⟩, ?_⟩
  · unfold deleteConnect
    rw [(flushQueue_cases hone hclean 1 _).2 (Nat.lt_succ_self _)]
    rfl
  · rintro ⟨fuel, queue', freed, hflush, hnone⟩
    rcases (flushQueue_cases hone hclean 1 fuel).1 with hloops | hreturns
    · rw [hloops] at hflush
      cases hflush
    · rw [hreturns] at hflush
      obtain ⟨rfl, -⟩ := Prod.mk.inj (Option.some.inj hflush)
      cases hone.unique hnone

end Loop

end HavokMud.Queue
