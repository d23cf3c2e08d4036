import HavokMud.Interaction.Tally
import HavokMud.Queue.Fifo
import Mathlib.Logic.Relation

/-!
# Threads at a queue

Any number of threads insert, take and clear.  What a thread does between two waits is one step, as
it holds the mutex.  A signal wakes one thread that waits for the condition, which looks at the
queue again when it has the mutex.  A condition is signalled only when it comes true, so a thread
sleeps on while more slots or items become free than threads are awake for.
-/

namespace HavokMud.Queue

open Cyclic Interaction Relation

/-- Where a thread is.  A thread that enqueues, dequeues, was resumed or clears is about to get the
mutex.  A consumer is resumed after a wait. -/
inductive Thread (α : Type)
  | outside
  | enqueueing (item : α)
  | awaitsNotFull (item : α)
  | dequeueing (timed : Bool)
  | resumed (timed timedOut : Bool)
  | awaitsNotEmpty (timed : Bool)
  | clearing (freeItems : Bool)
deriving DecidableEq

namespace Thread

variable {α : Type}

/-- A thread at the beginning of a call. -/
def calls : Thread α → Bool
  | enqueueing _ | dequeueing _ | clearing _ => true
  | _ => false

/-- A thread that goes on when it gets the mutex. -/
def runnable : Thread α → Bool
  | enqueueing _ | dequeueing _ | resumed _ _ | clearing _ => true
  | _ => false

/-- A producer in `pthread_cond_wait`. -/
def sleepsNotFull : Thread α → Bool
  | awaitsNotFull _ => true
  | _ => false

/-- A consumer in `pthread_cond_wait` or `pthread_cond_timedwait`. -/
def sleepsNotEmpty : Thread α → Bool
  | awaitsNotEmpty _ => true
  | _ => false

/-- A producer that will insert its item, if there is room. -/
def inserts : Thread α → Bool
  | enqueueing _ => true
  | _ => false

/-- A consumer that will take an item, if there is one. -/
def takes : Thread α → Bool
  | dequeueing _ => true
  | resumed timed timedOut => !(timed && timedOut)
  | _ => false

/-- A producer is woken. -/
def wakeNotFull : Thread α → Option (Thread α)
  | awaitsNotFull item => some (enqueueing item)
  | _ => none

/-- A consumer is woken. -/
def wakeNotEmpty : Thread α → Option (Thread α)
  | awaitsNotEmpty timed => some (resumed timed false)
  | _ => none

end Thread

/-- The rest of `QueueDequeueItem`, from the test of its loop on. -/
def dequeueSection {α : Type} (queue : QueueObject α) (timed timedOut : Bool) :
    (QueueObject α × Signals) × Thread α :=
  if queue.empty && !(timed && timedOut) then ((queue, ⟨false, false⟩), .awaitsNotEmpty timed)
  else if timed && timedOut then ((queue, ⟨false, false⟩), .outside)
  else ((takeItem queue).1, .outside)

/-- What a thread does with the mutex, until it waits or returns. -/
def runSection {α : Type} (globalAbort : Bool) (queue : QueueObject α) :
    Thread α → (QueueObject α × Signals) × Thread α
  | .enqueueing item =>
      if queue.full then ((queue, ⟨false, false⟩), .awaitsNotFull item)
      else (insertItem queue item, .outside)
  | .dequeueing timed => dequeueSection queue timed false
  | .resumed timed timedOut =>
      if globalAbort then ((queue, ⟨false, false⟩), .outside)
      else dequeueSection queue timed timedOut
  | .clearing freeItems => ((queueClear queue freeItems).1, .outside)
  | thread => ((queue, ⟨false, false⟩), thread)

/-- A queue and the threads that use it. -/
structure Monitor (ι α : Type) where
  globalAbort : Bool
  queue : QueueObject α
  threads : ι → Thread α

/-- A thread makes a call, has its section, runs out of time or is woken for no reason, or the
program begins to shut down.  The choices say whom the signals wake. -/
inductive Event (ι α : Type)
  | call (t : ι) (thread : Thread α)
  | run (t : ι) (producer consumer : Option ι)
  | timeout (t : ι)
  | spurious (t : ι)
  | abort

section Steps

variable {ι α : Type} [Fintype ι] [DecidableEq ι]

/-- `pthread_cond_signal`. -/
def notify (wake : Thread α → Option (Thread α)) (signal : Bool) (choice : Option ι)
    (threads : ι → Thread α) : Option (ι → Thread α) :=
  if signal then
    match choice with
    | some t => (wake (threads t)).map (Function.update threads t)
    | none => if ∀ t, wake (threads t) = none then some threads else none
  else some threads

/-- A thread has had its section. -/
def Monitor.leave (s : Monitor ι α) (t : ι) (result : (QueueObject α × Signals) × Thread α)
    (producer consumer : Option ι) : Option (Monitor ι α) :=
  (notify Thread.wakeNotFull result.1.2.notFull producer
      (Function.update s.threads t result.2)).bind fun threads ↦
    (notify Thread.wakeNotEmpty result.1.2.notEmpty consumer threads).map fun threads ↦
      ⟨s.globalAbort, result.1.1, threads⟩

def Monitor.step (s : Monitor ι α) : Event ι α → Option (Monitor ι α)
  | .call t thread =>
      match s.threads t with
      | .outside =>
          if thread.calls then some { s with threads := Function.update s.threads t thread }
          else none
      | _ => none
  | .run t producer consumer =>
      if (s.threads t).runnable then
        s.leave t (runSection s.globalAbort s.queue (s.threads t)) producer consumer
      else none
  | .timeout t =>
      match s.threads t with
      | .awaitsNotEmpty true =>
          some { s with threads := Function.update s.threads t (.resumed true true) }
      | _ => none
  | .spurious t =>
      ((s.threads t).wakeNotFull.or (s.threads t).wakeNotEmpty).map fun thread ↦
        { s with threads := Function.update s.threads t thread }
  | .abort => some { s with globalAbort := true }

/-- One event after the other. -/
def Monitor.run (s : Monitor ι α) (events : List (Event ι α)) : Option (Monitor ι α) :=
  events.foldlM Monitor.step s

/-- No thread has called yet. -/
def Monitor.create (queue : QueueObject α) : Monitor ι α :=
  ⟨false, queue, fun _ ↦ .outside⟩

/-! ## Numbers -/

/-- The producers that sleep. -/
def Monitor.producers (s : Monitor ι α) : ℕ :=
  tally Thread.sleepsNotFull s.threads

/-- The consumers that sleep. -/
def Monitor.consumers (s : Monitor ι α) : ℕ :=
  tally Thread.sleepsNotEmpty s.threads

/-- The producers that are awake. -/
def Monitor.inserting (s : Monitor ι α) : ℕ :=
  tally Thread.inserts s.threads

/-- The consumers that are awake. -/
def Monitor.taking (s : Monitor ι α) : ℕ :=
  tally Thread.takes s.threads

/-- The slots that may be filled. -/
def QueueObject.free (queue : QueueObject α) : ℕ :=
  queue.size - 1 - queue.count

/-- If slots are freed and more producers sleep than are woken, there are producers awake for all
free slots. -/
def RoomCovered (s : Monitor ι α) (freed : ℕ) : Prop :=
  s.producers ≤ s.queue.full.toNat ∨ s.queue.free + freed ≤ s.inserting + s.queue.full.toNat

/-- If an item is inserted and more consumers sleep than are woken, there are consumers awake for
all items. -/
def ItemCovered (s : Monitor ι α) : Prop :=
  s.consumers ≤ s.queue.empty.toNat ∨ s.queue.count + 1 ≤ s.taking + s.queue.empty.toNat

/-- If a consumer leaves without an item and another one sleeps, there are consumers awake for all
items. -/
def LeaveCovered (s : Monitor ι α) : Prop :=
  s.consumers = 0 ∨ s.queue.count + 1 ≤ s.taking

/-- The slots and items that a section makes free or leaves are covered. -/
def Covered (s : Monitor ι α) : Event ι α → Prop
  | .run t _ _ =>
      match s.threads t with
      | .enqueueing _ => s.queue.full = false → ItemCovered s
      | .dequeueing _ => s.queue.empty = false → RoomCovered s 1
      | .resumed timed timedOut =>
          (timed && timedOut) = false →
            if s.globalAbort then LeaveCovered s else s.queue.empty = false → RoomCovered s 1
      | .clearing _ => RoomCovered s s.queue.count
      | _ => True
  | _ => True

/-- A thread sleeps, although its condition is true and no thread goes on. -/
def Stuck (s : Monitor ι α) : Prop :=
  (∀ t, (s.threads t).runnable = false) ∧
    ((s.queue.full = false ∧ ∃ t, (s.threads t).sleepsNotFull = true) ∨
      (s.queue.empty = false ∧ ∃ t, (s.threads t).sleepsNotEmpty = true))

variable {s s' : Monitor ι α} {threads threads' : ι → Thread α} {queue : QueueObject α}
  {items : List α}

/-! ## Signals -/

theorem notify_cases {wake : Thread α → Option (Thread α)} {signal : Bool} {choice : Option ι}
    (h : notify wake signal choice threads = some threads') :
    (threads' = threads ∧ (signal = true → ∀ t, wake (threads t) = none)) ∨
      (signal = true ∧ ∃ t thread, wake (threads t) = some thread ∧
        threads' = Function.update threads t thread) := by
  unfold notify at h
  cases signal with
  | false => exact .inl ⟨(Option.some.inj h).symm, fun hfalse ↦ by cases hfalse⟩
  | true =>
      rw [if_pos rfl] at h
      cases choice with
      | some t =>
          obtain ⟨thread, hthread, rfl⟩ := Option.map_eq_some_iff.mp h
          exact .inr ⟨rfl, t, thread, hthread, rfl⟩
      | none =>
          dsimp only at h
          split_ifs at h with hnobody
          exact .inl ⟨(Option.some.inj h).symm, fun _ ↦ hnobody⟩

/-- What a signal does not touch. -/
theorem notify_same {wake : Thread α → Option (Thread α)} {p : Thread α → Bool} {signal : Bool}
    {choice : Option ι} (hp : ∀ x y, wake x = some y → p x = p y)
    (h : notify wake signal choice threads = some threads') :
    tally p threads' = tally p threads := by
  rcases notify_cases h with ⟨rfl, -⟩ | ⟨-, t, thread, hwake, rfl⟩
  · rfl
  · have hupdate := tally_update (p := p) (f := threads) (t := t) thread
    rw [hp _ _ hwake] at hupdate
    exact Nat.add_right_cancel hupdate

/-- A signal moves a thread that sleeps, if there is one, to those that are awake. -/
theorem notify_moves {wake : Thread α → Option (Thread α)} {sleeps awake : Thread α → Bool}
    {signal : Bool} {choice : Option ι}
    (hwake : ∀ x y, wake x = some y →
      sleeps x = true ∧ awake x = false ∧ sleeps y = false ∧ awake y = true)
    (hsleeps : ∀ x, sleeps x = true → wake x ≠ none)
    (h : notify wake signal choice threads = some threads') :
    tally sleeps threads' + min signal.toNat (tally sleeps threads) = tally sleeps threads ∧
      tally awake threads' = tally awake threads + min signal.toNat (tally sleeps threads) := by
  rcases notify_cases h with ⟨rfl, hnobody⟩ | ⟨rfl, t, thread, hthread, rfl⟩
  · have hzero : min signal.toNat (tally sleeps threads') = 0 := by
      cases signal with
      | false => exact Nat.zero_min _
      | true =>
          have hnone : ¬ 0 < tally sleeps threads' := by
            rw [tally_pos]
            rintro ⟨t, ht⟩
            exact hsleeps _ ht (hnobody rfl t)
          omega
    rw [hzero]
    exact ⟨rfl, rfl⟩
  · obtain ⟨hx, hx', hy, hy'⟩ := hwake _ _ hthread
    have hpos : 0 < tally sleeps threads := tally_pos.mpr ⟨t, hx⟩
    have hmin : min true.toNat (tally sleeps threads) = 1 := Nat.min_eq_left hpos
    have hasleep := tally_update (p := sleeps) (f := threads) (t := t) thread
    have hawake := tally_update (p := awake) (f := threads) (t := t) thread
    rw [hx, hy] at hasleep
    rw [hx', hy'] at hawake
    rw [hmin]
    exact ⟨hasleep, hawake⟩

/-- `cNotFull` is signalled. -/
theorem notify_notFull {signal : Bool} {choice : Option ι}
    (h : notify Thread.wakeNotFull signal choice threads = some threads') :
    tally Thread.sleepsNotEmpty threads' = tally Thread.sleepsNotEmpty threads ∧
      tally Thread.takes threads' = tally Thread.takes threads ∧
      tally Thread.sleepsNotFull threads' + min signal.toNat (tally Thread.sleepsNotFull threads) =
        tally Thread.sleepsNotFull threads ∧
      tally Thread.inserts threads' = tally Thread.inserts threads +
        min signal.toNat (tally Thread.sleepsNotFull threads) := by
  refine ⟨notify_same ?_ h, notify_same ?_ h, notify_moves ?_ ?_ h⟩
  · rintro (_ | _ | _ | _ | _ | _ | _) y hy <;> cases hy
    rfl
  · rintro (_ | _ | _ | _ | _ | _ | _) y hy <;> cases hy
    rfl
  · rintro (_ | _ | _ | _ | _ | _ | _) y hy <;> cases hy
    exact ⟨rfl, rfl, rfl, rfl⟩
  · rintro (_ | _ | _ | _ | _ | _ | _) hx <;> cases hx
    exact Option.some_ne_none _

/-- `cNotEmpty` is signalled. -/
theorem notify_notEmpty {signal : Bool} {choice : Option ι}
    (h : notify Thread.wakeNotEmpty signal choice threads = some threads') :
    tally Thread.sleepsNotFull threads' = tally Thread.sleepsNotFull threads ∧
      tally Thread.inserts threads' = tally Thread.inserts threads ∧
      tally Thread.sleepsNotEmpty threads' +
        min signal.toNat (tally Thread.sleepsNotEmpty threads) =
        tally Thread.sleepsNotEmpty threads ∧
      tally Thread.takes threads' = tally Thread.takes threads +
        min signal.toNat (tally Thread.sleepsNotEmpty threads) := by
  refine ⟨notify_same ?_ h, notify_same ?_ h, notify_moves ?_ ?_ h⟩
  · rintro (_ | _ | _ | _ | _ | _ | _) y hy <;> cases hy
    rfl
  · rintro (_ | _ | _ | _ | _ | _ | _) y hy <;> cases hy
    rfl
  · rintro (_ | _ | _ | _ | _ | timed | _) y hy <;> cases hy
    refine ⟨rfl, rfl, rfl, ?_⟩
    cases timed <;> rfl
  · rintro (_ | _ | _ | _ | _ | _ | _) hx <;> cases hx
    exact Option.some_ne_none _

/-! ## Sections -/

omit [Fintype ι] [DecidableEq ι] in
theorem signals_queueConditionUpdate (queue : QueueObject α) :
    (queueConditionUpdate queue).2 =
      ⟨queue.full && !(queueConditionUpdate queue).1.full,
        queue.empty && !(queueConditionUpdate queue).1.empty⟩ :=
  rfl

theorem Represents.full_eq_false (h : Represents queue items)
    (hlength : items.length + 1 < queue.size) :
    queue.full = false := by
  rw [← Bool.not_eq_true, h.full_iff]
  omega

/-- What inserting an item does to the numbers. -/
theorem insertItem_facts (h : Represents queue items) (hfull : queue.full = false) (item : α) :
    (∃ items', Represents (insertItem queue item).1 items') ∧
      (insertItem queue item).1.size = queue.size ∧
      (insertItem queue item).1.count = queue.count + 1 ∧
      (insertItem queue item).2 = ⟨false, queue.empty⟩ := by
  have hrepresents := h.insertItem (Bool.eq_false_iff.mp hfull) item
  have hempty : (insertItem queue item).1.empty = false := by
    rw [← Bool.not_eq_true, hrepresents.empty_iff]
    exact List.append_ne_nil_of_right_ne_nil _ (List.cons_ne_nil _ _)
  refine ⟨⟨_, hrepresents⟩, size_queueConditionUpdate _, ?_, ?_⟩
  · rw [← hrepresents.length, List.length_append, h.length]
    rfl
  · change (queueConditionUpdate _).2 = _
    rw [signals_queueConditionUpdate]
    change Signals.mk (queue.full && _) (queue.empty && !(insertItem queue item).1.empty) = _
    rw [hfull, hempty, Bool.false_and, Bool.not_false, Bool.and_true]

/-- What taking an item does to the numbers. -/
theorem takeItem_facts (h : Represents queue items) (hempty : queue.empty = false) :
    (∃ items', Represents (takeItem queue).1.1 items') ∧
      (takeItem queue).1.1.size = queue.size ∧
      (takeItem queue).1.1.count + 1 = queue.count ∧
      (takeItem queue).1.2 = ⟨queue.full, false⟩ := by
  cases items with
  | nil =>
      rw [h.empty_iff.mpr rfl] at hempty
      cases hempty
  | cons item rest =>
      have hrepresents := h.takeItem.1
      have hsize : (takeItem queue).1.1.size = queue.size := size_queueConditionUpdate _
      have hlength : rest.length + 1 = queue.count := h.length
      have hlt : queue.count < queue.size := distance_lt h.wf.head
      have hfull : (takeItem queue).1.1.full = false := hrepresents.full_eq_false (by omega)
      refine ⟨⟨_, hrepresents⟩, hsize, ?_, ?_⟩
      · rw [← hrepresents.length, hlength]
      · change (queueConditionUpdate _).2 = _
        rw [signals_queueConditionUpdate]
        change Signals.mk (queue.full && !(takeItem queue).1.1.full) (queue.empty && _) = _
        rw [hfull, hempty, Bool.false_and, Bool.not_false, Bool.and_true]

/-- What clearing does to the numbers. -/
theorem queueClear_facts (h : Represents queue items) (freeItems : Bool) :
    (∃ items', Represents (queueClear queue freeItems).1.1 items') ∧
      (queueClear queue freeItems).1.1.size = queue.size ∧
      (queueClear queue freeItems).1.1.count = 0 ∧
      (queueClear queue freeItems).1.2 = ⟨queue.full, false⟩ := by
  have hrepresents := Represents.queueClear h.wf freeItems
  have hsize : (queueClear queue freeItems).1.1.size = queue.size := size_queueConditionUpdate _
  have hbounds := h.wf.bounds.1
  have hfull : (queueClear queue freeItems).1.1.full = false :=
    hrepresents.full_eq_false (by rw [hsize]; exact hbounds)
  have hempty : (queueClear queue freeItems).1.1.empty = true := hrepresents.empty_iff.mpr rfl
  refine ⟨⟨_, hrepresents⟩, hsize, hrepresents.length.symm, ?_⟩
  change (queueConditionUpdate _).2 = _
  rw [signals_queueConditionUpdate]
  change Signals.mk (queue.full && !(queueClear queue freeItems).1.1.full)
    (queue.empty && !(queueClear queue freeItems).1.1.empty) = _
  rw [hfull, hempty, Bool.not_false, Bool.and_true, Bool.not_true, Bool.and_false]

end Steps

end HavokMud.Queue
