import HavokMud.Queue.Monitor

/-!
# Who wakes up

While threads sleep, others are awake for all the slots and items that there are: a thread that
leaves more of them than that loses a wake-up.
-/

namespace HavokMud.Queue

open Cyclic Interaction Relation

section Steps

variable {ι α : Type} [Fintype ι] [DecidableEq ι]

variable {s s' : Monitor ι α} {threads threads' : ι → Thread α} {queue : QueueObject α}
  {items : List α}

/-! ## The invariant -/

/-- While a producer sleeps, producers are awake for all free slots, and while a consumer sleeps,
consumers are awake for all items. -/
structure Monitor.Inv (s : Monitor ι α) : Prop where
  held : ∃ items, Represents s.queue items
  producers : 0 < s.producers → s.queue.free ≤ s.inserting
  consumers : 0 < s.consumers → s.queue.count ≤ s.taking

omit [Fintype ι] [DecidableEq ι] in
theorem Represents.free_pos (h : Represents queue items) (hfull : queue.full = false) :
    0 < queue.free := by
  have hlt : queue.count < queue.size := distance_lt h.wf.head
  have hne : queue.count + 1 ≠ queue.size := fun hcount ↦
    Bool.eq_false_iff.mp hfull (h.wf.full.mpr hcount)
  unfold QueueObject.free
  omega

theorem Represents.free_eq_zero (h : Represents queue items) (hfull : queue.full = true) :
    queue.free = 0 := by
  have hcount := h.wf.full.mp hfull
  unfold QueueObject.free
  omega

theorem Represents.count_pos (h : Represents queue items) (hempty : queue.empty = false) :
    0 < queue.count := by
  rw [Nat.pos_iff_ne_zero]
  exact fun hcount ↦ Bool.eq_false_iff.mp hempty (h.wf.empty.mpr hcount)

omit [DecidableEq ι] in
theorem Monitor.Inv.not_stuck (h : s.Inv) : ¬ Stuck s := by
  obtain ⟨items, hitems⟩ := h.held
  rintro ⟨hidle, ⟨hfull, hsleeps⟩ | ⟨hempty, hsleeps⟩⟩
  · have hawake : 0 < s.inserting :=
      (hitems.free_pos hfull).trans_le (h.producers (tally_pos.mpr hsleeps))
    obtain ⟨t, ht⟩ := tally_pos.mp hawake
    have hrunnable := hidle t
    cases hthread : s.threads t <;> rw [hthread] at ht hrunnable <;> cases ht
    cases hrunnable
  · have hawake : 0 < s.taking :=
      (hitems.count_pos hempty).trans_le (h.consumers (tally_pos.mpr hsleeps))
    obtain ⟨t, ht⟩ := tally_pos.mp hawake
    have hrunnable := hidle t
    cases hthread : s.threads t <;> rw [hthread] at ht hrunnable <;> cases hrunnable <;> cases ht

/-- One thread goes somewhere else, and the queue stays. -/
theorem Monitor.Inv.move (h : s.Inv) {t : ι} {old new : Thread α} (hold : s.threads t = old)
    (hproducers : (new.sleepsNotFull.toNat ≤ old.sleepsNotFull.toNat ∧
      old.inserts.toNat ≤ new.inserts.toNat) ∨ s.queue.free = 0)
    (hconsumers : (new.sleepsNotEmpty.toNat ≤ old.sleepsNotEmpty.toNat ∧
      old.takes.toNat ≤ new.takes.toNat) ∨ s.queue.count = 0) :
    Monitor.Inv { s with threads := Function.update s.threads t new } := by
  have hupdate := fun p ↦ tally_update (p := p) (f := s.threads) (t := t) new
  rw [hold] at hupdate
  have hsleepsP := hupdate Thread.sleepsNotFull
  have hinserts := hupdate Thread.inserts
  have hsleepsC := hupdate Thread.sleepsNotEmpty
  have htakes := hupdate Thread.takes
  have hP := h.producers
  have hC := h.consumers
  refine ⟨h.held, ?_, ?_⟩
  · intro hpos
    unfold Monitor.producers Monitor.inserting at *
    dsimp only at hpos ⊢
    omega
  · intro hpos
    unfold Monitor.consumers Monitor.taking at *
    dsimp only at hpos ⊢
    omega

/-- The numbers after a thread has left and the conditions were signalled. -/
theorem notified_tallies {t : ι} {old : Thread α} {full empty : Bool} {producer consumer : Option ι}
    {threads₁ : ι → Thread α} (hold : threads t = old) (hrunnable : old.runnable = true)
    (hfull : notify Thread.wakeNotFull full producer (Function.update threads t .outside) =
      some threads₁)
    (hempty : notify Thread.wakeNotEmpty empty consumer threads₁ = some threads') :
    tally Thread.sleepsNotFull threads' + min full.toNat (tally Thread.sleepsNotFull threads) =
        tally Thread.sleepsNotFull threads ∧
      tally Thread.inserts threads' + old.inserts.toNat = tally Thread.inserts threads +
        min full.toNat (tally Thread.sleepsNotFull threads) ∧
      tally Thread.sleepsNotEmpty threads' + min empty.toNat (tally Thread.sleepsNotEmpty threads) =
        tally Thread.sleepsNotEmpty threads ∧
      tally Thread.takes threads' + old.takes.toNat = tally Thread.takes threads +
        min empty.toNat (tally Thread.sleepsNotEmpty threads) := by
  have hupdate := fun p ↦ tally_update (p := p) (f := threads) (t := t) .outside
  rw [hold] at hupdate
  have hsleepsP : tally Thread.sleepsNotFull (Function.update threads t .outside) =
      tally Thread.sleepsNotFull threads := by
    have hsame := hupdate Thread.sleepsNotFull
    cases old <;> first | exact hsame | cases hrunnable
  have hsleepsC : tally Thread.sleepsNotEmpty (Function.update threads t .outside) =
      tally Thread.sleepsNotEmpty threads := by
    have hsame := hupdate Thread.sleepsNotEmpty
    cases old <;> first | exact hsame | cases hrunnable
  have hinserts : tally Thread.inserts (Function.update threads t .outside) + old.inserts.toNat =
      tally Thread.inserts threads := hupdate Thread.inserts
  have htakes : tally Thread.takes (Function.update threads t .outside) + old.takes.toNat =
      tally Thread.takes threads := hupdate Thread.takes
  obtain ⟨hC, hT, hP, hI⟩ := notify_notFull hfull
  obtain ⟨hP', hI', hC', hT'⟩ := notify_notEmpty hempty
  rw [hsleepsP] at hP hI
  rw [hC, hsleepsC] at hC' hT'
  refine ⟨?_, ?_, hC', ?_⟩ <;> omega

/-- A section that leaves the queue as it was. -/
theorem Monitor.Inv.leave_same {t : ι} {old new : Thread α} {producer consumer : Option ι}
    (h : s.Inv) (hold : s.threads t = old)
    (hproducers : (new.sleepsNotFull.toNat ≤ old.sleepsNotFull.toNat ∧
      old.inserts.toNat ≤ new.inserts.toNat) ∨ s.queue.free = 0)
    (hconsumers : (new.sleepsNotEmpty.toNat ≤ old.sleepsNotEmpty.toNat ∧
      old.takes.toNat ≤ new.takes.toNat) ∨ s.queue.count = 0)
    (hleave : s.leave t ((s.queue, ⟨false, false⟩), new) producer consumer = some s') : s'.Inv := by
  obtain rfl := Option.some.inj hleave
  exact h.move hold hproducers hconsumers

/-- A section that ends the call. -/
theorem Monitor.leave_inv {t : ι} {old : Thread α} {queue' : QueueObject α} {signals : Signals}
    {producer consumer : Option ι} (hold : s.threads t = old) (hrunnable : old.runnable = true)
    (hheld : ∃ items, Represents queue' items)
    (hproducers : s.producers ≤ signals.notFull.toNat ∨
      queue'.free + old.inserts.toNat ≤ s.inserting + signals.notFull.toNat)
    (hconsumers : s.consumers ≤ signals.notEmpty.toNat ∨
      queue'.count + old.takes.toNat ≤ s.taking + signals.notEmpty.toNat)
    (hleave : s.leave t ((queue', signals), .outside) producer consumer = some s') : s'.Inv := by
  obtain ⟨threads₁, hfull, hleave⟩ := Option.bind_eq_some_iff.mp hleave
  obtain ⟨threads₂, hempty, rfl⟩ := Option.map_eq_some_iff.mp hleave
  obtain ⟨hP, hI, hC, hT⟩ := notified_tallies hold hrunnable hfull hempty
  dsimp only at hP hI hC hT
  refine ⟨hheld, ?_, ?_⟩
  · intro hpos
    unfold Monitor.producers Monitor.inserting at *
    dsimp only at hpos ⊢
    omega
  · intro hpos
    unfold Monitor.consumers Monitor.taking at *
    dsimp only at hpos ⊢
    omega

/-- A consumer looks for an item. -/
theorem Monitor.Inv.dequeueSection {t : ι} {old : Thread α} {timed timedOut : Bool}
    {producer consumer : Option ι} (h : s.Inv) (hold : s.threads t = old)
    (hrunnable : old.runnable = true) (hinserts : old.inserts = false)
    (htakes : old.takes = !(timed && timedOut))
    (hguard : (timed && timedOut) = false → s.queue.empty = false → RoomCovered s 1)
    (hleave : s.leave t (dequeueSection s.queue timed timedOut) producer consumer = some s') :
    s'.Inv := by
  obtain ⟨items, hitems⟩ := h.held
  have hC := h.consumers
  have hlt : s.queue.count < s.queue.size := distance_lt hitems.wf.head
  unfold Queue.dequeueSection at hleave
  cases hexpired : timed && timedOut with
  | true =>
      rw [hexpired, Bool.not_true, Bool.and_false, if_neg Bool.false_ne_true, if_pos rfl] at hleave
      rw [hexpired] at htakes
      apply h.leave_same hold _ _ hleave
      · left
        rw [hinserts]
        exact ⟨Nat.zero_le _, le_rfl⟩
      · left
        rw [htakes]
        exact ⟨Nat.zero_le _, le_rfl⟩
  | false =>
      rw [hexpired] at hleave htakes
      cases hqueue : s.queue.empty with
      | true =>
          rw [hqueue] at hleave
          apply h.leave_same hold _ (.inr (hitems.wf.empty.mp hqueue)) hleave
          left
          rw [hinserts]
          exact ⟨Nat.zero_le _, le_rfl⟩
      | false =>
          obtain ⟨hheld, hsize, hcount, hsignals⟩ := takeItem_facts hitems hqueue
          have hcovered := hguard hexpired hqueue
          unfold RoomCovered at hcovered
          have hfree : (takeItem s.queue).1.1.free = s.queue.free + 1 := by
            unfold QueueObject.free
            omega
          have hsection : (takeItem s.queue).1 =
              ((takeItem s.queue).1.1, ⟨s.queue.full, false⟩) := by
            rw [← hsignals]
          rw [hqueue, Bool.false_and, if_neg Bool.false_ne_true, if_neg Bool.false_ne_true,
            hsection] at hleave
          apply Monitor.leave_inv hold hrunnable hheld _ _ hleave
          · rw [hinserts]
            change s.producers ≤ s.queue.full.toNat ∨ _ + 0 ≤ s.inserting + s.queue.full.toNat
            omega
          · rw [htakes]
            change s.consumers ≤ 0 ∨ _ + 1 ≤ s.taking + 0
            omega

/-- One thread has its section. -/
theorem Monitor.Inv.run {t : ι} {producer consumer : Option ι} (h : s.Inv)
    (hguard : Covered s (.run t producer consumer))
    (hstep : s.step (.run t producer consumer) = some s') : s'.Inv := by
  obtain ⟨items, hitems⟩ := h.held
  have hP := h.producers
  have hC := h.consumers
  have hlt : s.queue.count < s.queue.size := distance_lt hitems.wf.head
  unfold Monitor.step at hstep
  dsimp only at hstep
  split_ifs at hstep with hrunnable
  unfold Covered at hguard
  dsimp only at hguard
  obtain ⟨old, hold⟩ : ∃ old, s.threads t = old := ⟨_, rfl⟩
  rw [hold] at hguard hrunnable hstep
  cases old with
  | outside | awaitsNotFull _ | awaitsNotEmpty _ => cases hrunnable
  | enqueueing item =>
      change s.leave t (if s.queue.full then _ else _) producer consumer = _ at hstep
      cases hqueue : s.queue.full with
      | true =>
          rw [if_pos hqueue] at hstep
          apply h.leave_same hold (.inr (hitems.free_eq_zero hqueue)) _ hstep
          exact .inl ⟨le_rfl, le_rfl⟩
      | false =>
          obtain ⟨hheld, hsize, hcount, hsignals⟩ := insertItem_facts hitems hqueue item
          have hcovered := hguard hqueue
          unfold ItemCovered at hcovered
          have hfree : (insertItem s.queue item).1.free + 1 = s.queue.free := by
            have hpos := hitems.free_pos hqueue
            unfold QueueObject.free at *
            omega
          have hsection : insertItem s.queue item =
              ((insertItem s.queue item).1, ⟨false, s.queue.empty⟩) := by
            rw [← hsignals]
          rw [if_neg (Bool.eq_false_iff.mp hqueue), hsection] at hstep
          apply Monitor.leave_inv hold hrunnable hheld _ _ hstep
          · change s.producers ≤ 0 ∨ _ + 1 ≤ s.inserting + 0
            omega
          · change s.consumers ≤ s.queue.empty.toNat ∨ _ + 0 ≤ s.taking + s.queue.empty.toNat
            omega
  | dequeueing timed =>
      have hexpired : (timed && false) = false := Bool.and_false timed
      exact h.dequeueSection hold hrunnable rfl (by rw [hexpired]; rfl) (fun _ ↦ hguard) hstep
  | resumed timed timedOut =>
      dsimp only at hguard
      change s.leave t (if s.globalAbort then _ else _) producer consumer = _ at hstep
      split_ifs at hguard hstep
      · -- the thread gives up what it was woken for
        apply Monitor.leave_inv hold hrunnable h.held _ _ hstep
        · change s.producers ≤ 0 ∨ _ + 0 ≤ s.inserting + 0
          omega
        · change s.consumers ≤ 0 ∨ _ + (!(timed && timedOut)).toNat ≤ s.taking + 0
          cases hexpired : timed && timedOut with
          | true =>
              change s.consumers ≤ 0 ∨ _ + 0 ≤ s.taking + 0
              omega
          | false =>
              have hcovered := hguard hexpired
              unfold LeaveCovered at hcovered
              change s.consumers ≤ 0 ∨ _ + 1 ≤ s.taking + 0
              omega
      · exact h.dequeueSection hold hrunnable rfl rfl hguard hstep
  | clearing freeItems =>
      obtain ⟨hheld, hsize, hcount, hsignals⟩ := queueClear_facts hitems freeItems
      have hcovered : RoomCovered s s.queue.count := hguard
      unfold RoomCovered at hcovered
      have hfree : (queueClear s.queue freeItems).1.1.free = s.queue.free + s.queue.count := by
        unfold QueueObject.free
        omega
      have hsection : (queueClear s.queue freeItems).1 =
          ((queueClear s.queue freeItems).1.1, ⟨s.queue.full, false⟩) := by
        rw [← hsignals]
      change s.leave t ((queueClear s.queue freeItems).1, .outside) producer consumer = _ at hstep
      rw [hsection] at hstep
      apply Monitor.leave_inv hold hrunnable hheld _ _ hstep
      · change s.producers ≤ s.queue.full.toNat ∨ _ + 0 ≤ s.inserting + s.queue.full.toNat
        omega
      · change s.consumers ≤ 0 ∨ _ + 0 ≤ s.taking + 0
        omega

/-- A step keeps the invariant, if it is covered. -/
theorem Monitor.Inv.step {event : Event ι α} (h : s.Inv) (hguard : Covered s event)
    (hstep : s.step event = some s') : s'.Inv := by
  cases event with
  | run t producer consumer => exact h.run hguard hstep
  | abort =>
      obtain rfl := Option.some.inj hstep
      exact ⟨h.held, h.producers, h.consumers⟩
  | call t thread =>
      unfold Monitor.step at hstep
      dsimp only at hstep
      split at hstep
      · next hold =>
          split_ifs at hstep with hcalls
          obtain rfl := Option.some.inj hstep
          apply h.move hold
          · left
            cases thread <;> first | exact ⟨le_rfl, Nat.zero_le _⟩ | cases hcalls
          · left
            cases thread <;> first | exact ⟨le_rfl, Nat.zero_le _⟩ | cases hcalls
      · cases hstep
  | timeout t =>
      unfold Monitor.step at hstep
      dsimp only at hstep
      split at hstep
      · next hold =>
          obtain rfl := Option.some.inj hstep
          exact h.move hold (.inl ⟨le_rfl, le_rfl⟩) (.inl ⟨Nat.zero_le _, le_rfl⟩)
      · cases hstep
  | spurious t =>
      obtain ⟨thread, hwake, rfl⟩ := Option.map_eq_some_iff.mp hstep
      cases hold : s.threads t <;> rw [hold] at hwake <;> cases hwake
      · exact h.move hold (.inl ⟨Nat.zero_le _, Nat.zero_le _⟩) (.inl ⟨le_rfl, le_rfl⟩)
      · exact h.move hold (.inl ⟨le_rfl, le_rfl⟩) (.inl ⟨Nat.zero_le _, Nat.zero_le _⟩)

/-! ## A queue of one slot -/

/-- The queue has no room for an item, and says that it is empty. -/
structure Roomless (queue : QueueObject α) : Prop where
  mask : queue.numMask = 0
  head : queue.head = 0
  tail : queue.tail = 0
  full : queue.full = false
  empty : queue.empty = true

omit [Fintype ι] [DecidableEq ι] in
theorem roomless_update (queue' : QueueObject α) (hmask : queue'.numMask = 0)
    (hhead : queue'.head = 0) (htail : queue'.tail = 0) (hfull : queue'.full = false) :
    Roomless (queueConditionUpdate queue').1 ∧
      (queueConditionUpdate queue').2 = ⟨false, false⟩ := by
  have hupdate : queueConditionUpdate queue' = ({ queue' with
      empty := true
      full := false }, ⟨queue'.full && true, queue'.empty && false⟩) := by
    unfold queueConditionUpdate
    dsimp only
    rw [if_pos (hhead.trans htail.symm)]
    rfl
  rw [hupdate, hfull, Bool.and_false]
  exact ⟨⟨hmask, hhead, htail, rfl, rfl⟩, rfl⟩

omit [Fintype ι] [DecidableEq ι] in
/-- No section does anything to such a queue. -/
theorem Roomless.section (h : Roomless queue) (globalAbort : Bool) (thread : Thread α)
    (hsleeps : thread.sleepsNotFull = false) :
    Roomless (runSection globalAbort queue thread).1.1 ∧
      (runSection globalAbort queue thread).1.2 = ⟨false, false⟩ ∧
      (runSection globalAbort queue thread).2.sleepsNotFull = false := by
  have hdequeue : ∀ timed timedOut, Roomless (dequeueSection queue timed timedOut).1.1 ∧
      (dequeueSection queue timed timedOut).1.2 = ⟨false, false⟩ ∧
      (dequeueSection queue timed timedOut).2.sleepsNotFull = false := by
    intro timed timedOut
    unfold dequeueSection
    rw [h.empty]
    cases timed && timedOut <;> exact ⟨h, rfl, rfl⟩
  cases thread with
  | awaitsNotFull _ => cases hsleeps
  | outside | awaitsNotEmpty _ => exact ⟨h, rfl, rfl⟩
  | enqueueing item =>
      have hsection : runSection globalAbort queue (.enqueueing item) =
          (insertItem queue item, .outside) :=
        if_neg (Bool.eq_false_iff.mp h.full)
      have hhead : (queue.head + 1) &&& queue.numMask = 0 := by rw [h.mask, UInt32.and_zero]
      obtain ⟨hqueue, hsignals⟩ := roomless_update { queue with
        itemTable := queue.itemTable.set queue.head.toNat (some item)
        head := (queue.head + 1) &&& queue.numMask } h.mask hhead h.tail h.full
      rw [hsection]
      exact ⟨hqueue, hsignals, rfl⟩
  | clearing freeItems =>
      obtain ⟨hqueue, hsignals⟩ := roomless_update { queue with
        itemTable := if freeItems then List.replicate queue.numElements.toNat none
          else queue.itemTable
        head := 0
        tail := 0 } h.mask rfl rfl h.full
      exact ⟨hqueue, hsignals, rfl⟩
  | dequeueing timed => exact hdequeue timed false
  | resumed timed timedOut =>
      cases globalAbort with
      | true => exact ⟨h, rfl, rfl⟩
      | false => exact hdequeue timed timedOut

/-- The queue has no room, and no producer sleeps. -/
structure Monitor.Idle (s : Monitor ι α) : Prop where
  queue : Roomless s.queue
  threads : ∀ t, (s.threads t).sleepsNotFull = false

omit [Fintype ι] in
theorem Monitor.Idle.update (h : s.Idle) {queue' : QueueObject α} (hqueue : Roomless queue') {t : ι}
    {thread : Thread α} (globalAbort : Bool) (hthread : thread.sleepsNotFull = false) :
    Monitor.Idle ⟨globalAbort, queue', Function.update s.threads t thread⟩ := by
  refine ⟨hqueue, ?_⟩
  intro u
  rcases eq_or_ne u t with rfl | hu
  · change (Function.update s.threads u thread u).sleepsNotFull = false
    rwa [Function.update_self]
  · change (Function.update s.threads t thread u).sleepsNotFull = false
    rw [Function.update_of_ne hu]
    exact h.threads u

theorem Monitor.Idle.step {event : Event ι α} (h : s.Idle) (hstep : s.step event = some s') :
    s'.Idle := by
  cases event with
  | run t producer consumer =>
      unfold Monitor.step at hstep
      dsimp only at hstep
      split_ifs at hstep with hrunnable
      obtain ⟨hqueue, hsignals, hthread⟩ :=
        h.queue.section s.globalAbort (s.threads t) (h.threads t)
      unfold Monitor.leave at hstep
      rw [hsignals] at hstep
      obtain ⟨threads₁, hfull, hstep⟩ := Option.bind_eq_some_iff.mp hstep
      obtain ⟨threads₂, hempty, rfl⟩ := Option.map_eq_some_iff.mp hstep
      obtain rfl := Option.some.inj hfull
      obtain rfl := Option.some.inj hempty
      exact h.update hqueue _ hthread
  | abort =>
      obtain rfl := Option.some.inj hstep
      exact ⟨h.queue, h.threads⟩
  | call t thread =>
      unfold Monitor.step at hstep
      dsimp only at hstep
      split at hstep
      · split_ifs at hstep with hcalls
        obtain rfl := Option.some.inj hstep
        apply h.update h.queue
        cases thread <;> first | rfl | cases hcalls
      · cases hstep
  | timeout t =>
      unfold Monitor.step at hstep
      dsimp only at hstep
      split at hstep
      · obtain rfl := Option.some.inj hstep
        exact h.update h.queue _ rfl
      · cases hstep
  | spurious t =>
      obtain ⟨thread, hwake, rfl⟩ := Option.map_eq_some_iff.mp hstep
      apply h.update h.queue
      cases hold : s.threads t <;> rw [hold] at hwake <;> cases hwake <;> rfl

/-! ## Runs -/

/-- The steps that are covered. -/
def CoveredStep (s s' : Monitor ι α) : Prop :=
  ∃ event, Covered s event ∧ s.step event = some s'

omit [DecidableEq ι] in
theorem inv_create (h : Represents queue []) : (Monitor.create queue : Monitor ι α).Inv := by
  refine ⟨⟨_, h⟩, ?_, ?_⟩
  · intro hpos
    obtain ⟨t, ht⟩ := tally_pos.mp hpos
    cases ht
  · intro hpos
    obtain ⟨t, ht⟩ := tally_pos.mp hpos
    cases ht

omit [Fintype ι] [DecidableEq ι] in
theorem eq_one_of_queueCreate {numElements : UInt32}
    (hcreate : queueCreate numElements = some queue) (hlt : ¬ 2 ≤ numElements.toNat) :
    numElements = 1 := by
  have hne : numElements.toNat ≠ 0 := by
    intro hzero
    obtain rfl : numElements = 0 := UInt32.toNat_inj.mp hzero
    cases hcreate
  rw [← UInt32.toNat_inj]
  change numElements.toNat = 1
  omega

omit [Fintype ι] [DecidableEq ι] in
theorem roomless_queueCreate (hcreate : queueCreate 1 = some queue) : Roomless queue := by
  obtain rfl := Option.some.inj hcreate
  have hmask : (UInt32.ofNat (2 ^ if roundedShift 1 = 32 then 31 else roundedShift 1)) - 1 = 0 := by
    decide
  exact ⟨hmask, rfl, rfl, rfl, rfl⟩

omit [DecidableEq ι] [Fintype ι] in
theorem Monitor.Idle.not_stuck (h : s.Idle) : ¬ Stuck s := by
  rintro ⟨-, ⟨-, t, ht⟩ | ⟨hempty, -⟩⟩
  · rw [h.threads t] at ht
    cases ht
  · rw [h.queue.empty] at hempty
    cases hempty

/-- No thread sleeps for ever, if the slots and items that become free are covered. -/
theorem no_lost_wakeup {numElements : UInt32} (hcreate : queueCreate numElements = some queue)
    (h : ReflTransGen CoveredStep (Monitor.create queue) s) : ¬ Stuck s := by
  by_cases hge : 2 ≤ numElements.toNat
  · obtain ⟨queue', hcreate', hrepresents, -⟩ := @queueCreate_represents α numElements hge
    obtain rfl := Option.some.inj (hcreate.symm.trans hcreate')
    have hinv : s.Inv := by
      induction h with
      | refl => exact inv_create hrepresents
      | tail _ hlast ih =>
          obtain ⟨event, hguard, hstep⟩ := hlast
          exact ih.step hguard hstep
    exact hinv.not_stuck
  · obtain rfl := eq_one_of_queueCreate hcreate hge
    have hidle : s.Idle := by
      induction h with
      | refl => exact ⟨roomless_queueCreate hcreate, fun _ ↦ rfl⟩
      | tail _ hlast ih =>
          obtain ⟨event, -, hstep⟩ := hlast
          exact ih.step hstep
    exact hidle.not_stuck

end Steps

/-- One thread inserts an item that another one waits for. -/
theorem no_lost_wakeup_two : ∃ (queue : QueueObject ℕ) (s : Monitor (Fin 2) ℕ),
    queueCreate 3 = some queue ∧
      ReflTransGen CoveredStep (Monitor.create queue) s ∧ s.queue.empty = false ∧ ¬ Stuck s := by
  let queue : QueueObject ℕ := ⟨4, 3, 0, 0, [none, none, none, none], false, true⟩
  let s₁ : Monitor (Fin 2) ℕ :=
    ((Monitor.create queue).step (.call 1 (.dequeueing false))).getD (Monitor.create queue)
  let s₂ : Monitor (Fin 2) ℕ := (s₁.step (.run 1 none none)).getD s₁
  let s₃ : Monitor (Fin 2) ℕ := (s₂.step (.call 0 (.enqueueing 7))).getD s₂
  let s₄ : Monitor (Fin 2) ℕ := (s₃.step (.run 0 none (some 1))).getD s₃
  have hcreate : queueCreate 3 = some queue := by decide +kernel
  have h₁ : CoveredStep (Monitor.create queue) s₁ :=
    ⟨.call 1 (.dequeueing false), trivial, rfl⟩
  have h₂ : CoveredStep s₁ s₂ := by
    refine ⟨.run 1 none none, ?_, rfl⟩
    intro hempty
    exact absurd hempty (by decide)
  have h₃ : CoveredStep s₂ s₃ := ⟨.call 0 (.enqueueing 7), trivial, rfl⟩
  have h₄ : CoveredStep s₃ s₄ := by
    have hsome : (s₃.step (.run 0 none (some 1))).isSome = true := by decide +kernel
    refine ⟨.run 0 none (some 1), ?_, ?_⟩
    · intro _
      exact .inl (by decide +kernel)
    · rw [Option.eq_some_of_isSome hsome, Option.get_eq_getD]
  have hrun : ReflTransGen CoveredStep (Monitor.create queue) s₄ :=
    (((ReflTransGen.single h₁).tail h₂).tail h₃).tail h₄
  exact ⟨queue, s₄, hcreate, hrun, by decide +kernel, no_lost_wakeup hcreate hrun⟩

/-- The queue is filled, two producers wait, and two items are taken before the first producer
goes on. -/
def lostWakeup : List (Event (Fin 3) ℕ) :=
  [.call 0 (.enqueueing 1), .run 0 none none, .call 0 (.enqueueing 2), .run 0 none none,
    .call 0 (.enqueueing 3), .run 0 none none, .call 0 (.enqueueing 4), .run 0 none none,
    .call 1 (.enqueueing 5), .run 1 none none,
    .call 2 (.dequeueing false), .run 2 (some 0) none,
    .call 2 (.dequeueing false), .run 2 none none,
    .run 0 none none]

/-- The second producer sleeps on, with nobody to wake it. -/
theorem lost_wakeup : ∃ (queue : QueueObject ℕ) (s : Monitor (Fin 3) ℕ),
    queueCreate 3 = some queue ∧ (Monitor.create queue).run lostWakeup = some s ∧ Stuck s := by
  let queue : QueueObject ℕ := ⟨4, 3, 0, 0, [none, none, none, none], false, true⟩
  let s : Monitor (Fin 3) ℕ := ((Monitor.create queue).run lostWakeup).getD (Monitor.create queue)
  have hcreate : queueCreate 3 = some queue := by decide +kernel
  have hsome : ((Monitor.create queue).run lostWakeup).isSome = true := by decide +kernel
  refine ⟨queue, s, hcreate, ?_, ?_, .inl ⟨?_, 1, ?_⟩⟩
  · rw [Option.eq_some_of_isSome hsome, Option.get_eq_getD]
  · decide +kernel
  · decide +kernel
  · decide +kernel

end HavokMud.Queue
