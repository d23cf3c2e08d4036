import HavokMud.Interaction.Fairness
import HavokMud.Protobuf.Rendezvous
import Mathlib.Data.Prod.Lex

/-!
# Every blocking call gets its answer

In a run that is fair to `ProtobufThread` and to the callers, the items in front of an item are
handled one after the other, and then the call that waits for it returns.
-/

namespace HavokMud.Protobuf

open Interaction Relation

section Answers

variable {ι δ ω κ σ : Type}

/-! ## How far a call is from its return -/

/-- The steps that `ProtobufThread` has left for an item. -/
def Worker.left : Worker ω → ℕ
  | .testing => 6
  | .dequeueing => 5
  | .took _ => 4
  | .handled _ _ => 3
  | .stored _ => 2
  | .called _ => 1
  | .orphaned _ | .ended => 0

/-- The steps of `ProtobufThread` until it has unlocked the mutex of an item. -/
def State.distance (s : State ι δ ω κ σ) (item : ℕ) : ℕ :=
  if item ∈ s.active then s.worker.left + 6 * s.active.idxOf item else 0

/-- How far a thread is from the end of its call. -/
def State.measure (t : ι) (s : State ι δ ω κ σ) : ℕ ×ₗ ℕ :=
  match s.calls t with
  | some call => toLex (call.stage.left, s.distance call.item)
  | none => toLex (0, 0)

/-- Whose step brings a thread nearer to the end of its call. -/
def State.next (t : ι) (s : State ι δ ω κ σ) : Event ι δ κ σ :=
  match s.calls t with
  | some call => if call.item ∈ s.active then .worker else .caller t
  | none => .caller t

/-- The steps of `ProtobufThread` and of the callers. -/
def Event.own : Set (Event ι δ κ σ) :=
  {e | e = .worker ∨ ∃ t, e = .caller t}

/-- No thread calls without blocking, and the program goes on. -/
def Event.running : Event ι δ κ σ → Prop
  | .abort => False
  | e => e.blocks

/-- `ProtobufThread` goes on. -/
structure Going (s : State ι δ ω κ σ) : Prop where
  inv : s.Inv
  running : s.globalAbort = false
  worker : s.worker ≠ .ended

/-- A call that has returned or will go on. -/
structure Awaits (t : ι) (item : ℕ) (request : HavokRequest δ) (s : State ι δ ω κ σ) : Prop extends
    Going s where
  call : (∃ response, ⟨item, request, response⟩ ∈ s.returned) ∨
    ∃ stage, s.calls t = some ⟨item, request, true, stage⟩

variable {s s' : State ι δ ω κ σ} {t : ι} {item : ℕ} {request : HavokRequest δ}

/-- One step of `ProtobufThread`. -/
theorem work_progress {db : ReqType → HavokRequest δ → σ → Option ω × σ} (h : s.Inv)
    (hrunning : s.globalAbort = false) (hstep : s.work db = some s') :
    s'.calls = s.calls ∧ s'.returned = s.returned ∧ s'.globalAbort = false ∧ s'.worker ≠ .ended ∧
      ((s'.active = s.active ∧ s'.worker.left < s.worker.left) ∨
        ∃ item, s.active = item :: s'.active ∧ s.worker.left = 1 ∧ s'.worker.left = 6) := by
  have hactive : s.active = s.worker.items ++ s.protobufQ := rfl
  rcases h.work_cases hstep with ⟨hworker, rfl⟩ | ⟨item, rest, hworker, hqueue, rfl⟩ |
    ⟨-, habort, -⟩ | ⟨item, cell, hworker, hcell, rfl⟩ |
    ⟨item, response, cell, hworker, hcell, rfl⟩ | ⟨item, callbacks, hworker, rfl⟩ |
    ⟨item, cell, hworker, hcell, rfl⟩
  · rw [hworker] at hactive
    rw [if_neg (Bool.eq_false_iff.mp hrunning)]
    refine ⟨rfl, rfl, hrunning, nofun, .inl ⟨hactive.symm, ?_⟩⟩
    rw [hworker]
    exact Nat.lt_succ_self _
  · rw [hworker, hqueue] at hactive
    refine ⟨rfl, rfl, hrunning, nofun, .inl ⟨hactive.symm, ?_⟩⟩
    rw [hworker]
    exact Nat.lt_succ_self _
  · rw [hrunning] at habort
    cases habort
  · rw [hworker] at hactive
    refine ⟨rfl, rfl, hrunning, nofun, .inl ⟨hactive.symm, ?_⟩⟩
    rw [hworker]
    exact Nat.lt_succ_self _
  · rw [hworker] at hactive
    refine ⟨rfl, rfl, hrunning, nofun, .inl ⟨hactive.symm, ?_⟩⟩
    rw [hworker]
    exact Nat.lt_succ_self _
  · rw [hworker] at hactive
    refine ⟨rfl, rfl, hrunning, nofun, .inl ⟨hactive.symm, ?_⟩⟩
    rw [hworker]
    exact Nat.lt_succ_self _
  · rw [hworker] at hactive
    refine ⟨rfl, rfl, hrunning, nofun, .inr ⟨item, hactive, ?_, rfl⟩⟩
    rw [hworker]
    rfl

/-- It brings an item on its way nearer to its unlock. -/
theorem distance_work {db : ReqType → HavokRequest δ → σ → Option ω × σ} (h : s.Inv)
    (hrunning : s.globalAbort = false) (hstep : s.work db = some s') (hitem : item ∈ s.active) :
    s'.distance item < s.distance item := by
  obtain ⟨-, -, -, -, ⟨hactive, hleft⟩ | ⟨first, hactive, hleft, hleft'⟩⟩ :=
    work_progress h hrunning hstep
  · unfold State.distance
    rw [hactive, if_pos hitem, if_pos hitem]
    omega
  · unfold State.distance
    rw [if_pos hitem, hactive, hleft, hleft']
    split_ifs with hitem'
    · have hne : first ≠ item := by
        rintro rfl
        have hnodup := h.nodup
        rw [hactive] at hnodup
        exact (List.nodup_cons.mp hnodup).1 hitem'
      rw [List.idxOf_cons_ne _ hne]
      omega
    · omega

/-- An item that is not on its way is left alone. -/
theorem not_active_work {db : ReqType → HavokRequest δ → σ → Option ω × σ} (h : s.Inv)
    (hrunning : s.globalAbort = false) (hstep : s.work db = some s') (hitem : item ∉ s.active) :
    item ∉ s'.active := by
  obtain ⟨-, -, -, -, ⟨hactive, -⟩ | ⟨first, hactive, -⟩⟩ := work_progress h hrunning hstep
  · rwa [hactive]
  · rw [hactive] at hitem
    exact fun hitem' ↦ hitem (List.mem_cons_of_mem _ hitem')

theorem blocks_of_running {e : Event ι δ κ σ} (h : e.running) : e.blocks := by
  cases e with
  | abort => exact h.elim
  | call _ _ _ _ | caller _ | worker | outside _ => exact h

theorem next_cases (t : ι) (s : State ι δ ω κ σ) : s.next t = .worker ∨ s.next t = .caller t := by
  unfold State.next
  split
  · split_ifs
    · exact .inl rfl
    · exact .inr rfl
  · exact .inr rfl

/-- The call of a thread does not move, and its item stays where it is. -/
theorem measure_next_eq {call : Call δ ω} (hcall : s.calls t = some call)
    (hcall' : s'.calls t = some call) (hactive : call.item ∈ s'.active ↔ call.item ∈ s.active)
    (hworker : call.item ∈ s.active → s'.worker.left = s.worker.left)
    (hindex : call.item ∈ s.active → s'.active.idxOf call.item = s.active.idxOf call.item) :
    s'.measure t = s.measure t ∧ s'.next t = s.next t := by
  unfold State.measure State.next State.distance
  rw [hcall, hcall']
  dsimp only
  by_cases hitem : call.item ∈ s.active
  · rw [if_pos hitem, if_pos hitem, if_pos (hactive.mpr hitem), if_pos (hactive.mpr hitem),
      hworker hitem, hindex hitem]
    exact ⟨rfl, rfl⟩
  · rw [if_neg hitem, if_neg hitem, if_neg (hactive.not.mpr hitem), if_neg (hactive.not.mpr hitem)]
    exact ⟨rfl, rfl⟩

/-- `ProtobufThread` never waits while an item is on its way. -/
theorem work_ne_none {db : ReqType → HavokRequest δ → σ → Option ω × σ} (h : s.Inv)
    (hended : s.worker ≠ .ended) (hitem : item ∈ s.active) : s.work db ≠ none := by
  have hheld : ∀ item, s.worker.items = [item] → ∃ cell, s.heap item = some cell := by
    intro item hitem
    have hactive : item ∈ s.active := by
      unfold State.active
      rw [hitem]
      exact List.mem_cons_self
    obtain ⟨-, -, cell, -, -, -, hcell, -⟩ := h.untouched hactive
    exact ⟨cell, hcell⟩
  unfold State.work
  cases hworker : s.worker with
  | testing => exact Option.some_ne_none _
  | dequeueing =>
      unfold State.active at hitem
      rw [hworker] at hitem
      change item ∈ s.protobufQ at hitem
      cases hqueue : s.protobufQ with
      | nil =>
          rw [hqueue] at hitem
          cases hitem
      | cons _ _ => exact Option.some_ne_none _
  | took item | handled item _ | stored item | called item =>
      obtain ⟨cell, hcell⟩ := hheld item (by rw [hworker]; rfl)
      dsimp only
      rw [s.access_eq hcell]
      repeat' split
      all_goals exact Option.some_ne_none _
  | orphaned item =>
      have hsound := h.worker
      unfold State.WorkerSound at hsound
      rw [hworker] at hsound
      exact hsound.elim
  | ended => exact absurd hworker hended

variable [DecidableEq ι]

/-- Where another thread stands does not matter to a call. -/
theorem caller_progress {u : ι} (h : s.Inv) (hstep : s.caller u = some s') :
    s'.globalAbort = s.globalAbort ∧ s'.worker = s.worker ∧ (∀ v ≠ u, s'.calls v = s.calls v) ∧
      (∀ answer ∈ s.returned, answer ∈ s'.returned) ∧ ∃ call, s.calls u = some call ∧
      ((∃ stage, stage.left < call.stage.left ∧ s'.calls u = some { call with stage := stage }) ∨
        ∃ response, ⟨call.item, call.request, response⟩ ∈ s'.returned) ∧
      (s'.active = s.active ∨ s'.active = s.active ++ [call.item]) := by
  have hothers : ∀ (call : Option (Call δ ω)) v, v ≠ u →
      Function.update s.calls u call v = s.calls v :=
    fun call v hne ↦ Function.update_of_ne hne _ _
  obtain ⟨call, hcall, ⟨hstage, rfl⟩ | ⟨cell, stage, hleft, rfl, -⟩ | ⟨response, -, rfl⟩⟩ :=
    h.caller_cases hstep
  · refine ⟨rfl, rfl, hothers _, fun _ hmem ↦ hmem, call, hcall, .inl ⟨.waiting, ?_, ?_⟩, .inr ?_⟩
    · rw [hstage]
      exact Nat.lt_succ_self _
    · exact Function.update_self ..
    · exact (List.append_assoc ..).symm
  · refine ⟨rfl, rfl, hothers _, fun _ hmem ↦ hmem, call, hcall, .inl ⟨stage, hleft, ?_⟩, .inl rfl⟩
    exact Function.update_self ..
  · refine ⟨rfl, rfl, hothers _, fun _ hmem ↦ List.mem_append_left _ hmem, call, hcall,
      .inr ⟨response, ?_⟩, .inl rfl⟩
    exact List.mem_append_right _ (List.mem_singleton.mpr rfl)

theorem Going.step {db : ReqType → HavokRequest δ → σ → Option ω × σ} {e : Event ι δ κ σ}
    (h : Going s) (hrunning : e.running) (hstep : step db s e = some s') : Going s' := by
  have hinv := h.inv.step (blocks_of_running hrunning) hstep
  cases e with
  | call u request' callback block =>
      obtain ⟨-, rfl⟩ := State.Inv.call_cases hstep
      exact ⟨hinv, h.running, h.worker⟩
  | caller u =>
      obtain ⟨habort, hworker, -⟩ := caller_progress h.inv hstep
      exact ⟨hinv, habort.trans h.running, hworker ▸ h.worker⟩
  | worker =>
      obtain ⟨-, -, habort, hended, -⟩ := work_progress h.inv h.running hstep
      exact ⟨hinv, habort, hended⟩
  | abort => exact hrunning.elim
  | outside world =>
      obtain rfl := Option.some.inj hstep
      exact ⟨hinv, h.running, h.worker⟩

/-- A call that has not returned stays. -/
theorem Awaits.step {db : ReqType → HavokRequest δ → σ → Option ω × σ} {e : Event ι δ κ σ}
    (h : Awaits t item request s) (hrunning : e.running) (hstep : step db s e = some s') :
    Awaits t item request s' := by
  refine ⟨h.toGoing.step hrunning hstep, ?_⟩
  cases e with
  | call u request' callback block =>
      obtain ⟨hfree, rfl⟩ := State.Inv.call_cases hstep
      apply h.call.imp_right
      rintro ⟨stage, hcall⟩
      have hne : t ≠ u := by
        rintro rfl
        rw [hfree] at hcall
        cases hcall
      exact ⟨stage, (Function.update_of_ne hne _ _).trans hcall⟩
  | caller u =>
      obtain ⟨-, -, hothers, hreturned, call, hcall, hprogress, -⟩ := caller_progress h.inv hstep
      rcases h.call with ⟨response, hanswer⟩ | ⟨stage, hwaits⟩
      · exact .inl ⟨response, hreturned _ hanswer⟩
      · rcases eq_or_ne t u with rfl | hne
        · obtain rfl := Option.some.inj (hcall.symm.trans hwaits)
          rcases hprogress with ⟨stage', -, hcall'⟩ | hanswer
          · exact .inr ⟨stage', hcall'⟩
          · exact .inl hanswer
        · exact .inr ⟨stage, (hothers t hne).trans hwaits⟩
  | worker =>
      obtain ⟨hcalls, hreturned, -⟩ := work_progress h.inv h.running hstep
      rw [hcalls, hreturned]
      exact h.call
  | abort => exact hrunning.elim
  | outside world =>
      obtain rfl := Option.some.inj hstep
      exact h.call

/-! ## The steps that lead to the return -/

/-- A caller that has its item never waits. -/
theorem caller_ne_none {call : Call δ ω} (h : s.Inv) (hcall : s.calls t = some call)
    (hitem : call.item ∉ s.active) : s.caller t ≠ none := by
  obtain ⟨-, cell, hcell, -, hsound⟩ := h.calls t call hcall
  unfold State.caller
  rw [hcall]
  dsimp only
  unfold Call.Sound at hsound
  cases hstage : call.stage with
  | created => exact Option.some_ne_none _
  | waiting =>
      rw [hstage] at hsound
      obtain ⟨-, ⟨hactive, -⟩ | ⟨-, hmutex, -⟩⟩ := hsound
      · exact absurd hactive hitem
      · dsimp only
        rw [s.access_eq hcell, hmutex]
        exact Option.some_ne_none _
  | locked | answered _ | emptied _ | released _ | bare _ =>
      dsimp only
      rw [s.access_eq hcell]
      repeat' split
      all_goals exact Option.some_ne_none _

theorem Awaits.possible {db : ReqType → HavokRequest δ → σ → Option ω × σ}
    (h : Awaits t item request s) (hnot : ¬ ∃ response, ⟨item, request, response⟩ ∈ s.returned) :
    s.next t ∈ Event.own ∧ Protobuf.step db s (s.next t) ≠ none := by
  obtain ⟨stage, hcall⟩ := h.call.resolve_left hnot
  unfold State.next
  rw [hcall]
  dsimp only
  split_ifs with hactive
  · exact ⟨.inl rfl, work_ne_none h.inv h.worker hactive⟩
  · exact ⟨.inr ⟨t, rfl⟩, caller_ne_none h.inv hcall hactive⟩

/-- Every step leads nearer to the return, or leaves what does. -/
theorem Awaits.nearer {db : ReqType → HavokRequest δ → σ → Option ω × σ} {e : Event ι δ κ σ}
    (h : Awaits t item request s) (hnot : ¬ ∃ response, ⟨item, request, response⟩ ∈ s.returned)
    (hrunning : e.running) (hstep : Protobuf.step db s e = some s') :
    (∃ response, ⟨item, request, response⟩ ∈ s'.returned) ∨ s'.measure t < s.measure t ∨
      (e ≠ s.next t ∧ s'.measure t = s.measure t ∧ s'.next t = s.next t) := by
  obtain ⟨stage, hcall⟩ := h.call.resolve_left hnot
  have hnext := next_cases t s
  cases e with
  | call u request' callback block =>
      obtain ⟨hfree, rfl⟩ := State.Inv.call_cases hstep
      have hne : t ≠ u := by
        rintro rfl
        rw [hfree] at hcall
        cases hcall
      refine .inr (.inr ⟨?_, ?_⟩)
      · rcases hnext with hnext | hnext <;> rw [hnext] <;> nofun
      · exact measure_next_eq hcall ((Function.update_of_ne hne _ _).trans hcall) Iff.rfl
          (fun _ ↦ rfl) fun _ ↦ rfl
  | caller u =>
      obtain ⟨-, hworker, hothers, -, call, hcall', hprogress, hactive⟩ :=
        caller_progress h.inv hstep
      rcases eq_or_ne t u with rfl | hne
      · obtain rfl := Option.some.inj (hcall'.symm.trans hcall)
        rcases hprogress with ⟨stage', hleft, hcall₁⟩ | hanswer
        · refine .inr (.inl ?_)
          unfold State.measure
          rw [hcall, hcall₁]
          exact Prod.Lex.toLex_lt_toLex.mpr (.inl hleft)
        · exact .inl hanswer
      · have hitem : item ≠ call.item := fun heq ↦ hne (h.inv.distinct t u _ call hcall hcall' heq)
        refine .inr (.inr ⟨?_, measure_next_eq hcall ((hothers t hne).trans hcall) ?_ ?_ ?_⟩)
        · rcases hnext with hnext | hnext <;> rw [hnext]
          · nofun
          · exact fun heq ↦ hne (Event.caller.inj heq).symm
        · rcases hactive with hactive | hactive <;> rw [hactive]
          rw [List.mem_append, List.mem_singleton, or_iff_left hitem]
        · exact fun _ ↦ by rw [hworker]
        · intro hmem
          rcases hactive with hactive | hactive <;> rw [hactive]
          exact List.idxOf_append_of_mem hmem
  | worker =>
      obtain ⟨hcalls, -⟩ := work_progress h.inv h.running hstep
      have hcall' : s'.calls t = some ⟨item, request, true, stage⟩ := by
        rw [hcalls]
        exact hcall
      by_cases hactive : item ∈ s.active
      · refine .inr (.inl ?_)
        unfold State.measure
        rw [hcall, hcall']
        exact Prod.Lex.toLex_lt_toLex.mpr
          (.inr ⟨rfl, distance_work h.inv h.running hstep hactive⟩)
      · have hactive' := not_active_work h.inv h.running hstep hactive
        refine .inr (.inr ⟨?_, measure_next_eq hcall hcall' (iff_of_false hactive' hactive)
          (fun hmem ↦ absurd hmem hactive) fun hmem ↦ absurd hmem hactive⟩)
        unfold State.next
        rw [hcall]
        dsimp only
        rw [if_neg hactive]
        nofun
  | abort => exact hrunning.elim
  | outside world =>
      obtain rfl := Option.some.inj hstep
      refine .inr (.inr ⟨?_, measure_next_eq hcall hcall Iff.rfl (fun _ ↦ rfl) fun _ ↦ rfl⟩)
      rcases hnext with hnext | hnext <;> rw [hnext] <;> nofun

/-! ## Answers -/

/-- All answers were computed by `protobufHandle` from their requests. -/
def Computed (db : ReqType → HavokRequest δ → σ → Option ω × σ) (s : State ι δ ω κ σ) : Prop :=
  ∀ answer ∈ s.handled, ∃ world, answer.response = (protobufHandle db answer.request world).1

theorem Computed.step {db : ReqType → HavokRequest δ → σ → Option ω × σ} {e : Event ι δ κ σ}
    (h : Computed db s) (hinv : s.Inv) (hstep : step db s e = some s') : Computed db s' := by
  cases e with
  | call u request' callback block =>
      obtain ⟨-, rfl⟩ := State.Inv.call_cases hstep
      exact h
  | caller u =>
      obtain ⟨call, -, ⟨-, rfl⟩ | ⟨cell, stage, -, rfl, -⟩ | ⟨response, -, rfl⟩⟩ :=
        hinv.caller_cases hstep <;> exact h
  | worker =>
      rcases hinv.work_cases hstep with ⟨-, rfl⟩ | ⟨item, rest, -, -, rfl⟩ | ⟨-, -, rfl⟩ |
        ⟨item, cell, -, -, rfl⟩ | ⟨item, response, cell, -, -, rfl⟩ | ⟨item, callbacks, -, rfl⟩ |
        ⟨item, cell, -, -, rfl⟩
      · exact h
      · exact h
      · exact h
      · intro answer hanswer
        rcases List.mem_append.mp hanswer with hanswer | hanswer
        · exact h answer hanswer
        · obtain rfl := List.mem_singleton.mp hanswer
          exact ⟨s.world, rfl⟩
      · exact h
      · exact h
      · exact h
  | abort | outside _ =>
      obtain rfl := Option.some.inj hstep
      exact h

theorem reached {db : ReqType → HavokRequest δ → σ → Option ω × σ} {world : σ}
    (h : ReflTransGen (BlockingStep db) (.initial world) s) : s.Inv ∧ Computed db s := by
  induction h with
  | refl => exact ⟨inv_initial world, List.forall_mem_nil _⟩
  | tail _ hlast ih =>
      obtain ⟨e, hblocks, hstep⟩ := hlast
      exact ⟨ih.1.step hblocks hstep, ih.2.step ih.1 hstep⟩

/-- No thread touches an item that was destroyed, requests are handled once each in the order in
which they were enqueued, a call returns what was computed for its request, and while the program
runs every call returns. -/
theorem blocking_calls_answered (db : ReqType → HavokRequest δ → σ → Option ω × σ) :
    (∀ world (s : State ι δ ω κ σ), ReflTransGen (BlockingStep db) (.initial world) s →
      s.fault = false ∧ (s.enqueued.map Prod.fst).Nodup ∧
      s.handled.map Answer.key <+: s.enqueued ∧
      (∀ answer ∈ s.handled, ∃ world,
        answer.response = (protobufHandle db answer.request world).1) ∧
      ∀ answer ∈ s.returned, answer ∈ s.handled) ∧
    ∀ world (states : ℕ → State ι δ ω κ σ) events, states 0 = .initial world →
      FairRun (step db) Event.own states events → (∀ n, (events n).running) →
      ∀ n t call, (states n).calls t = some call →
        ∃ m ≥ n, ∃ response, ⟨call.item, call.request, response⟩ ∈ (states m).returned := by
  constructor
  · intro world s hrun
    obtain ⟨hinv, hcomputed⟩ := reached hrun
    obtain ⟨rest, hrest, -⟩ := hinv.queued
    exact ⟨hinv.fault, hinv.enqueued.1, ⟨rest, hrest.symm⟩, hcomputed, hinv.returned⟩
  · intro world states events hinit hfair hrunning n t call hcall
    have hgoing : ∀ m, Going (states m) := by
      intro m
      induction m with
      | zero =>
          rw [hinit]
          exact ⟨inv_initial world, rfl, nofun⟩
      | succ m ih => exact ih.step (hrunning m) (hfair.runs m)
    have hawaits : Awaits t call.item call.request (states n) := by
      refine ⟨hgoing n, .inr ⟨call.stage, ?_⟩⟩
      rw [hcall, ← ((hgoing n).inv.calls t call hcall).1]
    exact hfair.eventually hrunning (fun _ _ _ h hrunning hstep ↦ h.step hrunning hstep)
      (fun _ h hnot ↦ h.possible hnot)
        (fun _ _ _ h hnot hrunning hstep ↦ h.nearer hnot hrunning hstep)
      hawaits

end Answers

/-! ## One call -/

/-- A thread loads an account. -/
def oneCall : List (Event Unit ℕ Unit Unit) :=
  [.call () ⟨1, .loadAccount, none, some 7, none⟩ none true, .caller (), .worker, .worker, .worker,
    .worker, .worker, .worker, .worker, .caller (), .caller (), .caller (), .caller (), .caller (),
    .caller ()]

/-- The answer is the data of the request. -/
def echo (_ : ReqType) (req : HavokRequest ℕ) (world : Unit) : Option ℕ × Unit :=
  (req.data, world)

/-- The states of the call, and after them nothing. -/
def oneCallStates : ℕ → State Unit ℕ ℕ Unit Unit
  | 0 => .initial ()
  | n + 1 => (step echo (oneCallStates n) (oneCall.getD n (.outside ()))).getD (oneCallStates n)

theorem blocking_calls_answered_one : ∃ m, ∃ response,
    ⟨0, ⟨1, .loadAccount, none, some 7, none⟩, response⟩ ∈ (oneCallStates m).returned := by
  have hevents : ∀ n, 15 ≤ n → oneCall.getD n (.outside ()) = .outside () := by
    intro n hn
    rw [List.getD_eq_getElem?_getD, List.getElem?_eq_none hn]
    rfl
  have hstay : ∀ n, 15 ≤ n → oneCallStates n = oneCallStates 15 := by
    intro n hn
    induction n, hn using Nat.le_induction with
    | base => rfl
    | succ n hn ih =>
        change (step echo (oneCallStates n) (oneCall.getD n _)).getD _ = _
        rw [hevents n hn, ← ih]
        rfl
  have hruns : ∀ n, (step echo (oneCallStates n) (oneCall.getD n (.outside ()))).isSome = true := by
    intro n
    rcases Nat.lt_or_ge n 15 with hlt | hge
    · revert n
      decide +kernel
    · rw [hevents n hge]
      rfl
  have hidle : ∀ e ∈ Event.own, step echo (oneCallStates 15) e = none := by
    rintro e (rfl | ⟨⟨⟩, rfl⟩)
    · exact Option.isNone_iff_eq_none.mp (by decide +kernel)
    · exact Option.isNone_iff_eq_none.mp (by decide +kernel)
  have hfair : FairRun (step echo) Event.own oneCallStates fun n ↦
      oneCall.getD n (.outside ()) := by
    constructor
    · intro n
      rw [Option.eq_some_of_isSome (hruns n), Option.get_eq_getD]
      rfl
    · intro e he n henabled
      refine absurd ?_ (henabled (max n 15) (le_max_left n 15))
      rw [hstay _ (le_max_right n 15)]
      exact hidle e he
  have hall : ∀ e ∈ oneCall, e.running := by
    simp [oneCall, Event.running, Event.blocks]
  have hrunning : ∀ n, (oneCall.getD n (.outside ())).running := by
    intro n
    rcases Nat.lt_or_ge n 15 with hlt | hge
    · rw [List.getD_eq_getElem?_getD, List.getElem?_eq_getElem hlt]
      exact hall _ (List.getElem_mem hlt)
    · rw [hevents n hge]
      trivial
  obtain ⟨m, -, hanswer⟩ := (blocking_calls_answered echo).2 () oneCallStates _ rfl hfair hrunning
    1 () _ rfl
  exact ⟨m, hanswer⟩

end HavokMud.Protobuf
