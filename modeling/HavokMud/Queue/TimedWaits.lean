import HavokMud.Interaction.Histories
import HavokMud.Queue.Waiters

/-!
# Dequeueing with a timeout

A consumer whose wait has timed out returns NULL when it gets the mutex, whatever is in the queue
then.  The items that were inserted and neither taken nor cleared are recorded beside the queue.
-/

namespace HavokMud.Queue

open Cyclic Interaction

section Returns

variable {α : Type}

/-- What the rest of `QueueDequeueItem` returns, unless it waits. -/
def dequeueReturns (queue : QueueObject α) (timed timedOut : Bool) : Option (Option α) :=
  if queue.empty && !(timed && timedOut) then none
  else if timed && timedOut then some none
  else some (takeItem queue).2

/-- What a consumer returns in its section, unless it waits.  NULL is the inner `none`. -/
def returned (globalAbort : Bool) (queue : QueueObject α) : Thread α → Option (Option α)
  | .dequeueing timed => dequeueReturns queue timed false
  | .resumed timed timedOut =>
      if globalAbort then some none else dequeueReturns queue timed timedOut
  | _ => none

/-- The recorded items after a section. -/
def record (globalAbort : Bool) (queue : QueueObject α) (items : List α) : Thread α → List α
  | .enqueueing item => if queue.full then items else items ++ [item]
  | .clearing _ => []
  | thread =>
      match returned globalAbort queue thread with
      | some (some _) => items.tail
      | _ => items

/-- A consumer with a timeout that is about to get the mutex. -/
def Thread.timed : Thread α → Bool
  | dequeueing timed | resumed timed _ => timed
  | _ => false

variable {queue : QueueObject α} {items : List α}

/-- A consumer that does not give up takes the first item. -/
theorem Represents.dequeueReturns_cons {item : α} (h : Represents queue (item :: items))
    {timed timedOut : Bool} (hgoes : (timed && timedOut) = false) :
    dequeueReturns queue timed timedOut = some (some item) := by
  have hempty : queue.empty = false := by
    rw [← Bool.not_eq_true, h.empty_iff]
    exact List.cons_ne_nil item items
  unfold dequeueReturns
  rw [hempty, hgoes, h.takeItem.2]
  rfl

/-- A consumer that gives up takes nothing. -/
theorem dequeueReturns_timedOut : dequeueReturns queue true true = some none := by
  unfold dequeueReturns
  cases queue.empty <;> rfl

theorem dequeueReturns_of_empty (hempty : queue.empty = true) {timed timedOut : Bool}
    (hgoes : (timed && timedOut) = false) : dequeueReturns queue timed timedOut = none := by
  unfold dequeueReturns
  rw [hempty, hgoes]
  rfl

/-- The queue and the record change together. -/
theorem Represents.dequeueSection (h : Represents queue items) (timed timedOut : Bool) :
    Represents (dequeueSection queue timed timedOut).1.1
      (match dequeueReturns queue timed timedOut with
        | some (some _) => items.tail
        | _ => items) := by
  by_cases hgoes : (timed && timedOut) = false
  · cases items with
    | nil =>
        have hempty := h.empty_iff.mpr rfl
        rw [dequeueReturns_of_empty hempty hgoes]
        unfold Queue.dequeueSection
        rw [hempty, hgoes]
        exact h
    | cons item rest =>
        have hempty : queue.empty = false := by
          rw [← Bool.not_eq_true, h.empty_iff]
          exact List.cons_ne_nil item rest
        rw [h.dequeueReturns_cons hgoes]
        unfold Queue.dequeueSection
        rw [hempty, hgoes]
        exact h.takeItem.1
  · obtain ⟨rfl, rfl⟩ := Bool.and_eq_true_iff.mp (Bool.eq_true_of_not_eq_false hgoes)
    rw [dequeueReturns_timedOut]
    unfold Queue.dequeueSection
    cases queue.empty <;> exact h

theorem Represents.runSection (h : Represents queue items) (globalAbort : Bool)
    (thread : Thread α) : Represents (runSection globalAbort queue thread).1.1
      (record globalAbort queue items thread) := by
  cases thread with
  | outside | awaitsNotFull _ | awaitsNotEmpty _ => exact h
  | enqueueing item =>
      unfold Queue.runSection record
      dsimp only
      split_ifs with hfull
      · exact h
      · exact h.insertItem hfull item
  | dequeueing timed => exact h.dequeueSection timed false
  | resumed timed timedOut =>
      cases globalAbort with
      | true => exact h
      | false => exact h.dequeueSection timed timedOut
  | clearing freeItems => exact .queueClear h.wf freeItems

end Returns

section Runs

variable {ι α : Type} [Fintype ι] [DecidableEq ι]

/-- A step, with the record of the items. -/
def Monitor.recordedStep (s : Monitor ι α × List α) (event : Event ι α) :
    Option (Monitor ι α × List α) :=
  (s.1.step event).map fun s' ↦ (s',
    match event with
    | .run t _ _ => record s.1.globalAbort s.1.queue s.2 (s.1.threads t)
    | _ => s.2)

/-- A consumer with a timeout that has the mutex returns NULL only if the program shuts down or
there is no item, and else it returns the first item. -/
def GivesUpWhenEmpty (s : Monitor ι α × List α) : Event ι α → Prop
  | .run t _ _ => (s.1.threads t).timed = true →
      (returned s.1.globalAbort s.1.queue (s.1.threads t) = some none →
        s.1.globalAbort = true ∨ s.2 = []) ∧
      ∀ item rest, s.2 = item :: rest → s.1.globalAbort = false →
        returned s.1.globalAbort s.1.queue (s.1.threads t) = some (some item)
  | _ => True

/-- If there is an item for a consumer with a timeout that has the mutex, then the queue has more
than one slot and the wait has not timed out. -/
def InTime (numElements : UInt32) (s : Monitor ι α × List α) : Event ι α → Prop
  | .run t _ _ => (s.1.threads t).timed = true → s.1.globalAbort = false → s.2 ≠ [] →
      2 ≤ numElements.toNat ∧ s.1.threads t ≠ .resumed true true
  | _ => True

/-- What holds at every event of a run that begins with a queue. -/
def Throughout (queue : QueueObject α) (P : Monitor ι α × List α → Event ι α → Prop)
    (events : List (Event ι α)) : Prop :=
  AtEveryStep Monitor.recordedStep (Monitor.create queue, []) P events

/-- The queue holds the recorded items, or it has no room. -/
structure Recorded (numElements : UInt32) (s : Monitor ι α × List α) : Prop where
  represents : 2 ≤ numElements.toNat → Represents s.1.queue s.2
  idle : ¬ 2 ≤ numElements.toNat → s.1.Idle

variable {s s' : Monitor ι α} {queue : QueueObject α} {numElements : UInt32}

/-- The queue is changed in sections only. -/
theorem Monitor.step_queue {event : Event ι α} (hstep : s.step event = some s') :
    s'.queue = match event with
      | .run t _ _ => (runSection s.globalAbort s.queue (s.threads t)).1.1
      | _ => s.queue := by
  cases event with
  | run t producer consumer =>
      unfold Monitor.step at hstep
      dsimp only at hstep
      split_ifs at hstep
      obtain ⟨threads, -, hstep⟩ := Option.bind_eq_some_iff.mp hstep
      obtain ⟨threads', -, rfl⟩ := Option.map_eq_some_iff.mp hstep
      rfl
  | abort =>
      obtain rfl := Option.some.inj hstep
      rfl
  | call t thread =>
      unfold Monitor.step at hstep
      dsimp only at hstep
      split at hstep
      · split_ifs at hstep
        obtain rfl := Option.some.inj hstep
        rfl
      · cases hstep
  | timeout t =>
      unfold Monitor.step at hstep
      dsimp only at hstep
      split at hstep
      · obtain rfl := Option.some.inj hstep
        rfl
      · cases hstep
  | spurious t =>
      obtain ⟨thread, -, rfl⟩ := Option.map_eq_some_iff.mp hstep
      rfl

theorem Recorded.step {s s' : Monitor ι α × List α} {event : Event ι α}
    (h : Recorded numElements s) (hstep : Monitor.recordedStep s event = some s') :
    Recorded numElements s' := by
  obtain ⟨m, hm, rfl⟩ := Option.map_eq_some_iff.mp hstep
  refine ⟨fun hge ↦ ?_, fun hlt ↦ (h.idle hlt).step hm⟩
  have hqueue := Monitor.step_queue hm
  have hrepresents := h.represents hge
  dsimp only
  rw [hqueue]
  cases event with
  | run t producer consumer => exact hrepresents.runSection _ _
  | abort | call _ _ | timeout _ | spurious _ => exact hrepresents

omit [Fintype ι] [DecidableEq ι] in
theorem recorded_create (hcreate : queueCreate numElements = some queue) :
    Recorded numElements ((Monitor.create queue : Monitor ι α), []) := by
  constructor
  · intro hge
    obtain ⟨queue', hcreate', hrepresents, -⟩ := @queueCreate_represents α numElements hge
    obtain rfl := Option.some.inj (hcreate.symm.trans hcreate')
    exact hrepresents
  · intro hlt
    obtain rfl := eq_one_of_queueCreate hcreate hlt
    exact ⟨roomless_queueCreate hcreate, fun _ ↦ rfl⟩

omit [Fintype ι] [DecidableEq ι] in
/-- A consumer with a timeout, where there is an item. -/
theorem Recorded.returned_iff {m : Monitor ι α} {item : α} {items : List α}
    (h : Recorded numElements (m, item :: items)) (t : ι) (htimed : (m.threads t).timed = true)
    (habort : m.globalAbort = false) :
    returned m.globalAbort m.queue (m.threads t) = some (some item) ↔
      2 ≤ numElements.toNat ∧ m.threads t ≠ .resumed true true := by
  have hgoes : dequeueReturns m.queue true false = some (some item) ↔ 2 ≤ numElements.toNat := by
    by_cases hge : 2 ≤ numElements.toNat
    · exact iff_of_true ((h.represents hge).dequeueReturns_cons rfl) hge
    · rw [dequeueReturns_of_empty (h.idle hge).queue.empty rfl]
      exact iff_of_false (Option.some_ne_none _).symm hge
  rw [habort]
  cases hthread : m.threads t <;> rw [hthread] at htimed <;> cases htimed
  case dequeueing => exact hgoes.trans (iff_self_and.mpr fun _ heq ↦ by cases heq)
  case resumed timedOut =>
    cases timedOut with
    | false => exact hgoes.trans (iff_self_and.mpr fun _ heq ↦ by cases heq)
    | true =>
        change dequeueReturns m.queue true true = _ ↔ _
        rw [dequeueReturns_timedOut]
        exact iff_of_false (fun heq ↦ by cases heq) fun htime ↦ htime.2 rfl

omit [Fintype ι] [DecidableEq ι] in
/-- One event. -/
theorem Recorded.givesUpWhenEmpty_iff {s : Monitor ι α × List α} (h : Recorded numElements s)
    (event : Event ι α) : GivesUpWhenEmpty s event ↔ InTime numElements s event := by
  cases event with
  | abort | call _ _ | timeout _ | spurious _ => exact Iff.rfl
  | run t producer consumer =>
      obtain ⟨m, items⟩ := s
      unfold GivesUpWhenEmpty InTime
      dsimp only
      apply imp_congr_right
      intro htimed
      have hfirst : (∀ item rest, items = item :: rest → m.globalAbort = false →
            returned m.globalAbort m.queue (m.threads t) = some (some item)) ↔
          (m.globalAbort = false → items ≠ [] →
            2 ≤ numElements.toNat ∧ m.threads t ≠ .resumed true true) := by
        cases items with
        | nil => exact ⟨fun _ _ hne ↦ absurd rfl hne, fun _ _ _ hcons ↦ by cases hcons⟩
        | cons item rest =>
            have hone := h.returned_iff t htimed
            constructor
            · intro hreturns habort _
              exact (hone habort).mp (hreturns item rest rfl habort)
            · intro htime item' rest' hcons habort
              obtain ⟨rfl, rfl⟩ := List.cons.inj hcons
              exact (hone habort).mpr (htime habort (List.cons_ne_nil _ _))
      refine ⟨fun hgives ↦ hfirst.mp hgives.2, fun htime ↦ ⟨?_, hfirst.mpr htime⟩⟩
      intro hnull
      by_contra hnot
      obtain ⟨habort, hne⟩ := not_or.mp hnot
      obtain ⟨item, rest, rfl⟩ := List.exists_cons_of_ne_nil hne
      rw [hfirst.mpr htime item rest rfl (Bool.eq_false_iff.mpr habort)] at hnull
      cases hnull

/-- A consumer with a timeout gives up on a queue that is empty, and on no other, throughout a run
if and only if it is always in time. -/
theorem timed_dequeue_iff (hcreate : queueCreate numElements = some queue)
    (events : List (Event ι α)) : Throughout queue GivesUpWhenEmpty events ↔
      Throughout queue (InTime numElements) events :=
  atEveryStep_congr (fun _ _ _ h hstep ↦ Recorded.step h hstep) (recorded_create hcreate)
    (fun _ event h ↦ h.givesUpWhenEmpty_iff event) events

end Runs

/-- Two threads at a queue for three items. -/
theorem timed_dequeue_iff_two : ∃ queue : QueueObject ℕ, queueCreate 3 = some queue ∧
    ∀ events : List (Event Bool ℕ), Throughout queue GivesUpWhenEmpty events ↔
      Throughout queue (InTime 3) events := by
  have hcreate : queueCreate 3 = some (⟨4, 3, 0, 0, [none, none, none, none], false, true⟩ :
      QueueObject ℕ) := by
    decide +kernel
  exact ⟨_, hcreate, fun events ↦ timed_dequeue_iff hcreate events⟩

/-- One thread waits for an item and times out, and the other one inserts an item before the first
one has the mutex. -/
def lateItem : List (Event Bool ℕ) :=
  [.call false (.dequeueing true), .run false none none, .timeout false,
    .call true (.enqueueing 7), .run true none none]

/-- NULL is returned, although there is an item and the program goes on. -/
theorem late_item : ∃ (queue : QueueObject ℕ) (s : Monitor Bool ℕ),
    queueCreate 3 = some queue ∧
      runEvents Monitor.recordedStep (Monitor.create queue, []) lateItem = some (s, [7]) ∧
      s.globalAbort = false ∧ s.threads false = .resumed true true ∧
      returned s.globalAbort s.queue (s.threads false) = some none ∧
      ¬ Throughout queue GivesUpWhenEmpty (lateItem ++ [.run false none none]) := by
  let queue : QueueObject ℕ := ⟨4, 3, 0, 0, [none, none, none, none], false, true⟩
  let last := (runEvents Monitor.recordedStep (Monitor.create queue, []) lateItem).getD
    (Monitor.create queue, [])
  have hsome :
      (runEvents Monitor.recordedStep (Monitor.create queue, []) lateItem).isSome = true := by
    decide +kernel
  have hitems : last.2 = [7] := by decide +kernel
  have habort : last.1.globalAbort = false := by decide +kernel
  have hthread : last.1.threads false = .resumed true true := by decide +kernel
  have hnull : returned last.1.globalAbort last.1.queue (last.1.threads false) = some none := by
    decide +kernel
  have hrun : runEvents Monitor.recordedStep (Monitor.create queue, []) lateItem =
      some (last.1, [7]) := by
    rw [Option.eq_some_of_isSome hsome, Option.get_eq_getD]
    exact congrArg some (Prod.ext rfl hitems)
  refine ⟨queue, last.1, by decide +kernel, hrun, habort, hthread, hnull, ?_⟩
  intro hgives
  have htimed : (last.1.threads false).timed = true := by
    rw [hthread]
    rfl
  have hlast := (hgives lateItem (.run false none none) [] (last.1, [7]) rfl hrun htimed).1 hnull
  rcases hlast with htrue | hnil
  · rw [habort] at htrue
    cases htrue
  · cases hnil

end HavokMud.Queue
