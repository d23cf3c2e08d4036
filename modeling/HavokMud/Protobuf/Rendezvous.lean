import HavokMud.Protobuf.Threads
import Mathlib.Data.List.Nodup

/-!
# The rendezvous of a blocking call

An item belongs to its caller until it is enqueued and from the unlock of its mutex on.  In between
the caller waits in its second lock, and `ProtobufThread` finds the item as the caller left it.
-/

namespace HavokMud.Protobuf

section Rendezvous

variable {ι δ ω κ σ : Type}

/-! ## The invariant -/

/-- The steps that a call has left when it has its item back. -/
def Stage.left : Stage ω → ℕ
  | .created => 6
  | .waiting => 5
  | .locked => 4
  | .answered _ => 3
  | .emptied _ => 2
  | .released _ => 1
  | .bare _ => 0

/-- The item that `ProtobufThread` has in its hands. -/
def Worker.items : Worker ω → List ℕ
  | .took item | .handled item _ | .stored item | .called item => [item]
  | _ => []

/-- The item that it has not handled yet. -/
def Worker.unhandled : Worker ω → List ℕ
  | .took item => [item]
  | _ => []

/-- The items on their way, from `QueueEnqueueItem` to the unlock. -/
def State.active (s : State ι δ ω κ σ) : List ℕ :=
  s.worker.items ++ s.protobufQ

/-- The items that wait to be handled. -/
def State.pending (s : State ι δ ω κ σ) : List ℕ :=
  s.worker.unhandled ++ s.protobufQ

/-- What a call knows of its item. -/
def Call.Sound (s : State ι δ ω κ σ) (call : Call δ ω) (cell : ProtobufItem δ ω κ) : Prop :=
  match call.stage with
  | .created => cell.mutex = .locked ∧ cell.requestFreed = false ∧
      call.item ∉ s.enqueued.map Prod.fst
  | .waiting => cell.requestFreed = false ∧
      ((call.item ∈ s.active ∧ cell.mutex = .locked) ∨
        (call.item ∉ s.active ∧ cell.mutex = .unlocked ∧
          ⟨call.item, call.request, cell.response⟩ ∈ s.handled))
  | .locked => cell.mutex = .locked ∧ cell.requestFreed = false ∧
      ⟨call.item, call.request, cell.response⟩ ∈ s.handled
  | .answered response => cell.mutex = .locked ∧ cell.requestFreed = false ∧
      ⟨call.item, call.request, response⟩ ∈ s.handled
  | .emptied response => cell.mutex = .locked ∧ ⟨call.item, call.request, response⟩ ∈ s.handled
  | .released response => cell.mutex = .unlocked ∧ ⟨call.item, call.request, response⟩ ∈ s.handled
  | .bare response => ⟨call.item, call.request, response⟩ ∈ s.handled

/-- What `ProtobufThread` knows of its item. -/
def State.WorkerSound (s : State ι δ ω κ σ) : Prop :=
  match s.worker with
  | .handled item response => ∃ cell, s.heap item = some cell ∧
      ⟨item, cell.request, response⟩ ∈ s.handled
  | .stored item | .called item => ∃ cell, s.heap item = some cell ∧
      ⟨item, cell.request, cell.response⟩ ∈ s.handled
  | .orphaned _ => False
  | _ => True

structure State.Inv (s : State ι δ ω κ σ) : Prop where
  fault : s.fault = false
  below : ∀ t call, s.calls t = some call → call.item < s.created
  distinct : ∀ t u call other, s.calls t = some call → s.calls u = some other →
    call.item = other.item → t = u
  owned : ∀ item ∈ s.active, ∃ t call, s.calls t = some call ∧ call.item = item ∧
    call.stage = .waiting
  nodup : s.active.Nodup
  calls : ∀ t call, s.calls t = some call → call.block = true ∧ ∃ cell,
    s.heap call.item = some cell ∧ cell.request = call.request ∧ call.Sound s cell
  worker : s.WorkerSound
  queued : ∃ rest, s.enqueued = s.handled.map Answer.key ++ rest ∧ rest.map Prod.fst = s.pending ∧
    ∀ p ∈ rest, ∃ cell, s.heap p.1 = some cell ∧ cell.request = p.2
  enqueued : (s.enqueued.map Prod.fst).Nodup ∧ ∀ item ∈ s.enqueued.map Prod.fst, item < s.created
  returned : ∀ answer ∈ s.returned, answer ∈ s.handled

theorem State.access_eq (s : State ι δ ω κ σ) {item : ℕ} {cell : ProtobufItem δ ω κ}
    (hcell : s.heap item = some cell) (f : ProtobufItem δ ω κ → Option (State ι δ ω κ σ)) :
    s.access item f = f cell := by
  unfold State.access
  rw [hcell]

theorem inv_initial (world : σ) : (State.initial world : State ι δ ω κ σ).Inv where
  fault := rfl
  below := fun _ _ hcall ↦ by cases hcall
  distinct := fun _ _ _ _ hcall ↦ by cases hcall
  owned := List.forall_mem_nil _
  nodup := List.nodup_nil
  calls := fun _ _ hcall ↦ by cases hcall
  worker := trivial
  queued := ⟨[], rfl, rfl, List.forall_mem_nil _⟩
  enqueued := ⟨List.nodup_nil, List.forall_mem_nil _⟩
  returned := List.forall_mem_nil _

namespace State.Inv

variable {s s' : State ι δ ω κ σ} {t : ι} {call : Call δ ω} {cell : ProtobufItem δ ω κ} {item : ℕ}

/-- Only a call in its second lock has an item on its way. -/
theorem not_active (h : s.Inv) (hcall : s.calls t = some call) (hstage : call.stage ≠ .waiting) :
    call.item ∉ s.active := by
  intro hactive
  obtain ⟨u, other, hother, hitem, hwaiting⟩ := h.owned _ hactive
  obtain rfl := h.distinct u t other call hother hcall hitem
  obtain rfl := Option.some.inj (hother.symm.trans hcall)
  exact hstage hwaiting

theorem active_below (h : s.Inv) (hactive : item ∈ s.active) : item < s.created := by
  obtain ⟨t, call, hcall, rfl, -⟩ := h.owned _ hactive
  exact h.below t call hcall

theorem pending_subset (s : State ι δ ω κ σ) : ∀ item ∈ s.pending, item ∈ s.active := by
  intro item hitem
  unfold State.pending State.active at *
  cases hworker : s.worker <;> rw [hworker] at hitem <;>
    first | exact hitem | exact List.mem_append_right _ hitem

/-- The item of `ProtobufThread` is as its caller left it. -/
theorem untouched (h : s.Inv) (hactive : item ∈ s.active) :
    ∃ t call cell, s.calls t = some call ∧ call.item = item ∧ call.stage = .waiting ∧
      s.heap item = some cell ∧ cell.request = call.request ∧ cell.requestFreed = false ∧
      cell.mutex = .locked := by
  obtain ⟨t, call, hcall, rfl, hstage⟩ := h.owned _ hactive
  obtain ⟨-, cell, hcell, hrequest, hsound⟩ := h.calls t call hcall
  unfold Call.Sound at hsound
  rw [hstage] at hsound
  obtain ⟨hfreed, ⟨-, hmutex⟩ | ⟨hnot, -⟩⟩ := hsound
  · exact ⟨t, call, cell, hcall, rfl, hstage, hcell, hrequest, hfreed, hmutex⟩
  · exact absurd hactive hnot

/-- Items that are on their way stay as they are. -/
theorem workerSound_frame (h : s.Inv) (hworker : s'.worker = s.worker)
    (hhandled : s'.handled = s.handled) (hheap : ∀ item ∈ s.active, s'.heap item = s.heap item) :
    s'.WorkerSound := by
  have hsound := h.worker
  unfold State.WorkerSound at *
  rw [hworker, hhandled]
  have hitems : ∀ item ∈ s.worker.items, s'.heap item = s.heap item := fun item hitem ↦
    hheap item (List.mem_append_left _ hitem)
  cases hcase : s.worker <;> rw [hcase] at hsound hitems <;> first
    | exact hsound
    | (dsimp only at hsound ⊢
       rw [hitems _ (List.mem_singleton.mpr rfl)]
       exact hsound)

theorem queued_frame (h : s.Inv) (henqueued : s'.enqueued = s.enqueued)
    (hhandled : s'.handled = s.handled) (hpending : s'.pending = s.pending)
    (hheap : ∀ item ∈ s.active, s'.heap item = s.heap item) :
    ∃ rest, s'.enqueued = s'.handled.map Answer.key ++ rest ∧ rest.map Prod.fst = s'.pending ∧
      ∀ p ∈ rest, ∃ cell, s'.heap p.1 = some cell ∧ cell.request = p.2 := by
  obtain ⟨rest, hrest, hitems, hcells⟩ := h.queued
  refine ⟨rest, ?_, hitems.trans hpending.symm, ?_⟩
  · rw [henqueued, hhandled, hrest]
  · intro p hp
    have hactive : p.1 ∈ s.active := by
      apply pending_subset
      rw [← hitems]
      exact List.mem_map_of_mem hp
    rw [hheap _ hactive]
    exact hcells p hp

/-- More answers do not matter to a call. -/
theorem sound_mono (h : call.Sound s cell) (hactive : call.item ∈ s'.active ↔ call.item ∈ s.active)
    (henqueued : call.item ∈ s'.enqueued.map Prod.fst ↔ call.item ∈ s.enqueued.map Prod.fst)
    (hhandled : ∀ answer ∈ s.handled, answer ∈ s'.handled) : call.Sound s' cell := by
  unfold Call.Sound at *
  rw [hactive, henqueued]
  cases hstage : call.stage <;> rw [hstage] at h
  · exact h
  · exact ⟨h.1, h.2.imp_right fun hfree ↦ ⟨hfree.1, hfree.2.1, hhandled _ hfree.2.2⟩⟩
  · exact ⟨h.1, h.2.1, hhandled _ h.2.2⟩
  · exact ⟨h.1, h.2.1, hhandled _ h.2.2⟩
  · exact ⟨h.1, hhandled _ h.2⟩
  · exact ⟨h.1, hhandled _ h.2⟩
  · exact hhandled _ h

/-! ## Calls -/

section Calls

variable [DecidableEq ι]

/-- A thread begins a call if it is in none. -/
theorem call_cases {request : HavokRequest δ} {callback : Option κ} {block : Bool}
    (hstep : s.call t request callback block = some s') :
    s.calls t = none ∧ s' = { s with
      heap := Function.update s.heap s.created
        (some ⟨request, false, none, callback, if block then .locked else .null⟩)
      created := s.created + 1
      calls := Function.update s.calls t (some ⟨s.created, request, block, .created⟩) } := by
  unfold State.call at hstep
  split at hstep
  · cases hstep
  next hfree =>
  exact ⟨hfree, (Option.some.inj hstep).symm⟩

/-- A call that goes on has the item that it had before. -/
theorem item_of_update (hcall : s.calls t = some call) {stage : Stage ω} {u : ι}
    {other : Call δ ω}
    (hcalls : Function.update s.calls t (some { call with stage := stage }) u = some other) :
    ∃ before, s.calls u = some before ∧ before.item = other.item := by
  rcases eq_or_ne u t with rfl | hne
  · rw [Function.update_self] at hcalls
    obtain rfl := Option.some.inj hcalls
    exact ⟨call, hcall, rfl⟩
  · rw [Function.update_of_ne hne] at hcalls
    exact ⟨other, hcalls, rfl⟩

theorem below_of_update (h : s.Inv) (hcall : s.calls t = some call) {stage : Stage ω} (u : ι)
    (other : Call δ ω)
    (hcalls : Function.update s.calls t (some { call with stage := stage }) u = some other) :
    other.item < s.created := by
  obtain ⟨before, hbefore, hitem⟩ := item_of_update hcall hcalls
  rw [← hitem]
  exact h.below u before hbefore

theorem distinct_of_update (h : s.Inv) (hcall : s.calls t = some call) {stage : Stage ω} (u v : ι)
    (other other' : Call δ ω)
    (hcalls : Function.update s.calls t (some { call with stage := stage }) u = some other)
    (hcalls' : Function.update s.calls t (some { call with stage := stage }) v = some other')
    (heq : other.item = other'.item) : u = v := by
  obtain ⟨before, hbefore, hitem⟩ := item_of_update hcall hcalls
  obtain ⟨before', hbefore', hitem'⟩ := item_of_update hcall hcalls'
  exact h.distinct u v before before' hbefore hbefore' (hitem.trans (heq.trans hitem'.symm))

/-- A call goes on with an item that is its own. -/
theorem advance (h : s.Inv) (hcall : s.calls t = some call) (hactive : call.item ∉ s.active)
    (hrequest : cell.request = call.request) {stage : Stage ω}
    (hsound : Call.Sound s { call with stage := stage } cell) :
    (s.advance t call cell stage).Inv := by
  have hheap : ∀ item ≠ call.item, (s.advance t call cell stage).heap item = s.heap item :=
    fun item hne ↦ Function.update_of_ne hne _ _
  have hheap' : ∀ item ∈ s.active, (s.advance t call cell stage).heap item = s.heap item :=
    fun item hitem ↦ hheap item (ne_of_mem_of_not_mem hitem hactive)
  have hself : (s.advance t call cell stage).calls t = some { call with stage := stage } :=
    Function.update_self ..
  have hother : ∀ u ≠ t, (s.advance t call cell stage).calls u = s.calls u :=
    fun u hne ↦ Function.update_of_ne hne _ _
  refine ⟨h.fault, h.below_of_update hcall, h.distinct_of_update hcall, ?_, h.nodup, ?_,
    h.workerSound_frame rfl rfl hheap', h.queued_frame rfl rfl rfl hheap', h.enqueued, h.returned⟩
  · intro item hitem
    obtain ⟨u, other, hu, rfl, hstage⟩ := h.owned item hitem
    have hne : u ≠ t := by
      rintro rfl
      obtain rfl := Option.some.inj (hu.symm.trans hcall)
      exact hactive hitem
    exact ⟨u, other, (hother u hne).trans hu, rfl, hstage⟩
  · intro u other hcalls
    rcases eq_or_ne u t with rfl | hne
    · obtain rfl := Option.some.inj (hself.symm.trans hcalls)
      exact ⟨(h.calls u call hcall).1, cell, Function.update_self .., hrequest, hsound⟩
    · rw [hother u hne] at hcalls
      obtain ⟨hblock, cell', hcell, hrequest', hsound'⟩ := h.calls u other hcalls
      have hitem : other.item ≠ call.item := fun heq ↦
        hne (h.distinct u t other call hcalls hcall heq)
      exact ⟨hblock, cell', (hheap _ hitem).trans hcell, hrequest', hsound'⟩

/-- A call begins. -/
theorem begin {request : HavokRequest δ} {callback : Option κ}
    (hstep : s.call t request callback true = some s') (h : s.Inv) : s'.Inv := by
  obtain ⟨hfree, rfl⟩ := call_cases hstep
  set new : Call δ ω := ⟨s.created, request, true, .created⟩
  have hself : Function.update s.calls t (some new) t = some new := Function.update_self ..
  have hcalls : ∀ u other, Function.update s.calls t (some new) u = some other →
      (u = t ∧ other = new) ∨ (u ≠ t ∧ s.calls u = some other) := by
    intro u other hcalls
    rcases eq_or_ne u t with rfl | hne
    · exact .inl ⟨rfl, (Option.some.inj (hself.symm.trans hcalls)).symm⟩
    · rw [Function.update_of_ne hne] at hcalls
      exact .inr ⟨hne, hcalls⟩
  have hheap : ∀ (cell : ProtobufItem δ ω κ) item, item < s.created →
      Function.update s.heap s.created (some cell) item = s.heap item :=
    fun cell item hlt ↦ Function.update_of_ne (Nat.ne_of_lt hlt) _ _
  refine ⟨h.fault, ?_, ?_, ?_, h.nodup, ?_,
    h.workerSound_frame rfl rfl fun item hitem ↦ hheap _ item (h.active_below hitem),
    h.queued_frame rfl rfl rfl fun item hitem ↦ hheap _ item (h.active_below hitem),
    ⟨h.enqueued.1, fun item hitem ↦ Nat.lt_succ_of_lt (h.enqueued.2 item hitem)⟩,
    h.returned⟩
  · intro u other hother
    rcases hcalls u other hother with ⟨rfl, rfl⟩ | ⟨-, hu⟩
    · exact Nat.lt_succ_self _
    · exact Nat.lt_succ_of_lt (h.below u other hu)
  · intro u v other other' hother hother' heq
    rcases hcalls u other hother with ⟨rfl, rfl⟩ | ⟨-, hu⟩ <;>
      rcases hcalls v other' hother' with ⟨rfl, rfl⟩ | ⟨-, hv⟩
    · rfl
    · exact absurd heq (Nat.ne_of_gt (h.below v other' hv))
    · exact absurd heq (Nat.ne_of_lt (h.below u other hu))
    · exact h.distinct u v other other' hu hv heq
  · intro item hitem
    obtain ⟨u, other, hu, rfl, hstage⟩ := h.owned item hitem
    have hne : u ≠ t := by
      rintro rfl
      rw [hfree] at hu
      cases hu
    exact ⟨u, other, (Function.update_of_ne hne _ _).trans hu, rfl, hstage⟩
  · intro u other hother
    rcases hcalls u other hother with ⟨rfl, rfl⟩ | ⟨-, hu⟩
    · refine ⟨rfl, _, Function.update_self .., rfl, rfl, rfl, ?_⟩
      exact fun hmem ↦ Nat.lt_irrefl _ (h.enqueued.2 _ hmem)
    · obtain ⟨hblock, cell, hcell, hrequest, hsound⟩ := h.calls u other hu
      exact ⟨hblock, cell, (hheap _ _ (h.below u other hu)).trans hcell, hrequest, hsound⟩

/-- The item is enqueued. -/
theorem enqueue (h : s.Inv) (hcall : s.calls t = some call) (hstage : call.stage = .created) :
    State.Inv { s with
      protobufQ := s.protobufQ ++ [call.item]
      enqueued := s.enqueued ++ [(call.item, call.request)]
      calls := Function.update s.calls t (some { call with stage := .waiting }) } := by
  set s₁ : State ι δ ω κ σ := { s with
    protobufQ := s.protobufQ ++ [call.item]
    enqueued := s.enqueued ++ [(call.item, call.request)]
    calls := Function.update s.calls t (some { call with stage := .waiting }) }
  have hactive : s₁.active = s.active ++ [call.item] := (List.append_assoc ..).symm
  have hfresh : call.item ∉ s.active := h.not_active hcall (by rw [hstage]; nofun)
  have hself : s₁.calls t = some { call with stage := .waiting } := Function.update_self ..
  have hother : ∀ u ≠ t, s₁.calls u = s.calls u := fun u hne ↦ Function.update_of_ne hne _ _
  obtain ⟨hblock, cell, hcell, hrequest, hsound⟩ := h.calls t call hcall
  unfold Call.Sound at hsound
  rw [hstage] at hsound
  obtain ⟨hmutex, hfreed, hnew⟩ := hsound
  refine ⟨h.fault, h.below_of_update hcall, h.distinct_of_update hcall, ?_, ?_, ?_, ?_, ?_,
    ⟨?_, ?_⟩, h.returned⟩
  · intro item hitem
    rw [hactive, List.mem_append, List.mem_singleton] at hitem
    rcases hitem with hitem | rfl
    · obtain ⟨u, other, hu, rfl, hwaiting⟩ := h.owned item hitem
      have hne : u ≠ t := by
        rintro rfl
        obtain rfl := Option.some.inj (hu.symm.trans hcall)
        exact hfresh hitem
      exact ⟨u, other, (hother u hne).trans hu, rfl, hwaiting⟩
    · exact ⟨t, _, hself, rfl, rfl⟩
  · rw [hactive]
    exact h.nodup.append (List.nodup_singleton _) (List.disjoint_singleton.mpr hfresh)
  · intro u other hcalls
    rcases eq_or_ne u t with rfl | hne
    · obtain rfl := Option.some.inj (hself.symm.trans hcalls)
      refine ⟨hblock, cell, hcell, hrequest, hfreed, .inl ⟨?_, hmutex⟩⟩
      rw [hactive]
      exact List.mem_append_right _ (List.mem_singleton.mpr rfl)
    · rw [hother u hne] at hcalls
      obtain ⟨hblock', cell', hcell', hrequest', hsound'⟩ := h.calls u other hcalls
      have hitem : other.item ≠ call.item := fun heq ↦
        hne (h.distinct u t other call hcalls hcall heq)
      refine ⟨hblock', cell', hcell', hrequest', sound_mono hsound' ?_ ?_ fun _ hmem ↦ hmem⟩
      · rw [hactive, List.mem_append, List.mem_singleton, or_iff_left hitem]
      · rw [List.map_append, List.mem_append, List.map_singleton, List.mem_singleton,
          or_iff_left hitem]
  · exact h.worker
  · obtain ⟨rest, hrest, hpending, hcells⟩ := h.queued
    refine ⟨rest ++ [(call.item, call.request)], ?_, ?_, ?_⟩
    · change s.enqueued ++ _ = _
      rw [hrest, List.append_assoc]
    · rw [List.map_append, hpending]
      exact List.append_assoc ..
    · intro p hp
      rcases List.mem_append.mp hp with hp | hp
      · exact hcells p hp
      · obtain rfl := List.mem_singleton.mp hp
        exact ⟨cell, hcell, hrequest⟩
  · rw [List.map_append]
    exact h.enqueued.1.append (List.nodup_singleton _) (List.disjoint_singleton.mpr hnew)
  · intro item hitem
    rw [List.map_append, List.mem_append] at hitem
    rcases hitem with hitem | hitem
    · exact h.enqueued.2 item hitem
    · obtain rfl := List.mem_singleton.mp hitem
      exact h.below t call hcall

/-- The item is freed and the response returned. -/
theorem finish (h : s.Inv) (hcall : s.calls t = some call) {response : Option ω}
    (hstage : call.stage = .bare response) :
    State.Inv { s with
      heap := Function.update s.heap call.item none
      calls := Function.update s.calls t none
      returned := s.returned ++ [⟨call.item, call.request, response⟩] } := by
  have hactive : call.item ∉ s.active := h.not_active hcall (by rw [hstage]; nofun)
  have hcalls : ∀ u other, Function.update s.calls t none u = some other →
      u ≠ t ∧ s.calls u = some other := by
    intro u other hcalls
    rcases eq_or_ne u t with rfl | hne
    · rw [Function.update_self] at hcalls
      cases hcalls
    · rw [Function.update_of_ne hne] at hcalls
      exact ⟨hne, hcalls⟩
  have hheap : ∀ item ≠ call.item, Function.update s.heap call.item none item = s.heap item :=
    fun item hne ↦ Function.update_of_ne hne _ _
  have hheap' : ∀ item ∈ s.active, Function.update s.heap call.item none item = s.heap item :=
    fun item hitem ↦ hheap item (ne_of_mem_of_not_mem hitem hactive)
  refine ⟨h.fault, ?_, ?_, ?_, h.nodup, ?_, h.workerSound_frame rfl rfl hheap',
    h.queued_frame rfl rfl rfl hheap', h.enqueued, ?_⟩
  · exact fun u other hother ↦ h.below u other (hcalls u other hother).2
  · exact fun u v other other' hother hother' heq ↦
      h.distinct u v other other' (hcalls u other hother).2 (hcalls v other' hother').2 heq
  · intro item hitem
    obtain ⟨u, other, hu, rfl, hwaiting⟩ := h.owned item hitem
    have hne : u ≠ t := by
      rintro rfl
      obtain rfl := Option.some.inj (hu.symm.trans hcall)
      exact hactive hitem
    exact ⟨u, other, (Function.update_of_ne hne _ _).trans hu, rfl, hwaiting⟩
  · intro u other hother
    obtain ⟨hne, hu⟩ := hcalls u other hother
    obtain ⟨hblock, cell, hcell, hrequest, hsound⟩ := h.calls u other hu
    have hitem : other.item ≠ call.item := fun heq ↦ hne (h.distinct u t other call hu hcall heq)
    exact ⟨hblock, cell, (hheap _ hitem).trans hcell, hrequest, hsound⟩
  · obtain ⟨-, cell, -, -, hsound⟩ := h.calls t call hcall
    unfold Call.Sound at hsound
    rw [hstage] at hsound
    intro answer hanswer
    rcases List.mem_append.mp hanswer with hanswer | hanswer
    · exact h.returned answer hanswer
    · obtain rfl := List.mem_singleton.mp hanswer
      exact hsound

/-- What a thread does in its call. -/
theorem caller_cases (h : s.Inv) (hstep : s.caller t = some s') : ∃ call, s.calls t = some call ∧
    ((call.stage = .created ∧ s' = { s with
        protobufQ := s.protobufQ ++ [call.item]
        enqueued := s.enqueued ++ [(call.item, call.request)]
        calls := Function.update s.calls t (some { call with stage := .waiting }) }) ∨
      (∃ cell stage, stage.left < call.stage.left ∧ s' = s.advance t call cell stage ∧
        call.item ∉ s.active ∧ cell.request = call.request ∧
        Call.Sound s { call with stage := stage } cell) ∨
      ∃ response, call.stage = .bare response ∧ s' = { s with
        heap := Function.update s.heap call.item none
        calls := Function.update s.calls t none
        returned := s.returned ++ [⟨call.item, call.request, response⟩] }) := by
  unfold State.caller at hstep
  split at hstep
  · cases hstep
  next call hcall =>
  refine ⟨call, hcall, ?_⟩
  obtain ⟨hblock, cell, hcell, hrequest, hsound⟩ := h.calls t call hcall
  have hfresh : call.stage ≠ .waiting → call.item ∉ s.active := h.not_active hcall
  unfold Call.Sound at hsound
  cases hstage : call.stage with
  | created =>
      rw [hstage] at hstep
      dsimp only at hstep
      rw [if_pos hblock] at hstep
      exact .inl ⟨rfl, (Option.some.inj hstep).symm⟩
  | waiting =>
      rw [hstage] at hstep hsound
      dsimp only at hstep
      rw [s.access_eq hcell] at hstep
      obtain ⟨hfreed, ⟨-, hmutex⟩ | ⟨hactive, hmutex, hhandled⟩⟩ := hsound
      · rw [hmutex] at hstep
        cases hstep
      · rw [hmutex] at hstep
        obtain rfl := Option.some.inj hstep
        exact .inr (.inl ⟨_, .locked, Nat.lt_succ_self _, rfl, hactive, hrequest, rfl,
          hfreed, hhandled⟩)
  | locked =>
      rw [hstage] at hstep hsound hfresh
      dsimp only at hstep
      rw [s.access_eq hcell] at hstep
      obtain rfl := Option.some.inj hstep
      exact .inr (.inl ⟨_, .answered _, Nat.lt_succ_self _, rfl, hfresh nofun, hrequest, hsound⟩)
  | answered response =>
      rw [hstage] at hstep hsound hfresh
      dsimp only at hstep
      rw [s.access_eq hcell, if_neg (Bool.eq_false_iff.mp hsound.2.1)] at hstep
      obtain rfl := Option.some.inj hstep
      exact .inr (.inl ⟨_, .emptied _, Nat.lt_succ_self _, rfl, hfresh nofun, hrequest, hsound.1,
        hsound.2.2⟩)
  | emptied response =>
      rw [hstage] at hstep hsound hfresh
      dsimp only at hstep
      rw [s.access_eq hcell, hsound.1] at hstep
      obtain rfl := Option.some.inj hstep
      exact .inr (.inl ⟨_, .released _, Nat.lt_succ_self _, rfl, hfresh nofun, hrequest,
        rfl, hsound.2⟩)
  | released response =>
      rw [hstage] at hstep hsound hfresh
      dsimp only at hstep
      rw [s.access_eq hcell, hsound.1] at hstep
      obtain rfl := Option.some.inj hstep
      exact .inr (.inl ⟨_, .bare _, Nat.lt_succ_self _, rfl, hfresh nofun, hrequest, hsound.2⟩)
  | bare response =>
      rw [hstage] at hstep
      dsimp only at hstep
      rw [s.access_eq hcell] at hstep
      exact .inr (.inr ⟨response, rfl, (Option.some.inj hstep).symm⟩)

/-- A thread goes on in its call. -/
theorem caller (hstep : s.caller t = some s') (h : s.Inv) : s'.Inv := by
  obtain ⟨call, hcall, ⟨hstage, rfl⟩ | ⟨cell, stage, -, rfl, hactive, hrequest, hsound⟩ |
    ⟨response, hstage, rfl⟩⟩ := h.caller_cases hstep
  · exact h.enqueue hcall hstage
  · exact h.advance hcall hactive hrequest hsound
  · exact h.finish hcall hstage

end Calls

/-! ## `ProtobufThread` -/

/-- The items on their way stay the same. -/
theorem relabel (h : s.Inv) {worker : Worker ω} {queue : List ℕ} {callbacks : List (κ × Option ω)}
    (hactive : worker.items ++ queue = s.active) (hpending : worker.unhandled ++ queue = s.pending)
    (hworker : State.WorkerSound { s with
      worker := worker, protobufQ := queue, callbacks := callbacks }) :
    State.Inv { s with worker := worker, protobufQ := queue, callbacks := callbacks } := by
  set s₁ : State ι δ ω κ σ := { s with
    worker := worker, protobufQ := queue, callbacks := callbacks }
  have hsame : s₁.active = s.active := hactive
  refine ⟨h.fault, h.below, h.distinct, ?_, ?_, ?_, hworker,
    h.queued_frame rfl rfl hpending fun _ _ ↦ rfl, h.enqueued, h.returned⟩
  · rw [hsame]
    exact h.owned
  · rw [hsame]
    exact h.nodup
  · intro t call hcall
    obtain ⟨hblock, cell, hcell, hrequest, hsound⟩ := h.calls t call hcall
    refine ⟨hblock, cell, hcell, hrequest, sound_mono hsound ?_ Iff.rfl fun _ hmem ↦ hmem⟩
    rw [hsame]

/-- The request is handled. -/
theorem handle (h : s.Inv) (hworker : s.worker = .took item) (hcell : s.heap item = some cell)
    (response : Option ω) (world : σ) :
    State.Inv { s with
      worker := .handled item response
      world := world
      handled := s.handled ++ [⟨item, cell.request, response⟩] } := by
  set s₁ : State ι δ ω κ σ := { s with
    worker := .handled item response
    world := world
    handled := s.handled ++ [⟨item, cell.request, response⟩] }
  have hsame : s₁.active = s.active := by
    unfold State.active
    rw [hworker]
    rfl
  have hlast : (⟨item, cell.request, response⟩ : Answer δ ω) ∈ s₁.handled :=
    List.mem_append_right _ (List.mem_singleton.mpr rfl)
  refine ⟨h.fault, h.below, h.distinct, ?_, ?_, ?_, ⟨cell, hcell, hlast⟩, ?_, h.enqueued, ?_⟩
  · rw [hsame]
    exact h.owned
  · rw [hsame]
    exact h.nodup
  · intro t call hcall
    obtain ⟨hblock, cell', hcell', hrequest, hsound⟩ := h.calls t call hcall
    refine ⟨hblock, cell', hcell', hrequest, sound_mono hsound ?_ Iff.rfl ?_⟩
    · rw [hsame]
    · exact fun _ hmem ↦ List.mem_append_left _ hmem
  · -- the item at the front of the pending ones is the next answer
    obtain ⟨rest, hrest, hpending, hcells⟩ := h.queued
    unfold State.pending at hpending
    rw [hworker] at hpending
    cases rest with
    | nil => cases hpending
    | cons p rest =>
        obtain ⟨hitem, hpending⟩ := List.cons.inj hpending
        obtain ⟨cell', hcell', hrequest⟩ := hcells p List.mem_cons_self
        rw [hitem, hcell] at hcell'
        obtain rfl := Option.some.inj hcell'
        refine ⟨rest, ?_, hpending, fun q hq ↦ hcells q (List.mem_cons_of_mem _ hq)⟩
        change s.enqueued = (s.handled ++ [(⟨item, cell.request, response⟩ : Answer δ ω)]).map
          Answer.key ++ rest
        rw [hrest, List.map_append, List.append_assoc]
        congr 2
        exact Prod.ext hitem hrequest.symm
  · exact fun answer hanswer ↦ List.mem_append_left _ (h.returned answer hanswer)

/-- `ProtobufThread` writes an item that its caller waits for. -/
theorem write (h : s.Inv) (hactive : item ∈ s.active) {new : ProtobufItem δ ω κ}
    (hcell : s.heap item = some cell) (hrequest : new.request = cell.request)
    (hfreed : new.requestFreed = cell.requestFreed) (hmutex : new.mutex = cell.mutex)
    {worker : Worker ω} (hitems : worker.items = s.worker.items)
    (hunhandled : worker.unhandled = s.worker.unhandled)
    (hworker : State.WorkerSound { s with
      heap := Function.update s.heap item (some new), worker := worker }) :
    State.Inv { s with heap := Function.update s.heap item (some new), worker := worker } := by
  set s₁ : State ι δ ω κ σ := { s with
    heap := Function.update s.heap item (some new), worker := worker }
  have hsame : s₁.active = s.active := congrArg (· ++ s.protobufQ) hitems
  have hpending : s₁.pending = s.pending := congrArg (· ++ s.protobufQ) hunhandled
  have hself : s₁.heap item = some new := Function.update_self ..
  have hother : ∀ item' ≠ item, s₁.heap item' = s.heap item' := fun item' hne ↦
    Function.update_of_ne hne _ _
  refine ⟨h.fault, h.below, h.distinct, ?_, ?_, ?_, hworker, ?_, h.enqueued, h.returned⟩
  · rw [hsame]
    exact h.owned
  · rw [hsame]
    exact h.nodup
  · intro t call hcall
    obtain ⟨hblock, cell', hcell', hrequest', hsound⟩ := h.calls t call hcall
    by_cases hitem : call.item = item
    · subst hitem
      obtain rfl := Option.some.inj (hcell.symm.trans hcell')
      have hstage : call.stage = .waiting := by
        by_contra hne
        exact h.not_active hcall hne hactive
      refine ⟨hblock, new, hself, hrequest.trans hrequest', ?_⟩
      unfold Call.Sound at hsound ⊢
      rw [hstage] at hsound ⊢
      obtain ⟨hfreed', ⟨-, hmutex'⟩ | ⟨hnot, -⟩⟩ := hsound
      · refine ⟨hfreed.trans hfreed', .inl ⟨?_, hmutex.trans hmutex'⟩⟩
        rw [hsame]
        exact hactive
      · exact absurd hactive hnot
    · refine ⟨hblock, cell', (hother _ hitem).trans hcell', hrequest', ?_⟩
      refine sound_mono hsound ?_ Iff.rfl fun _ hmem ↦ hmem
      rw [hsame]
  · obtain ⟨rest, hrest, hitems', hcells⟩ := h.queued
    refine ⟨rest, hrest, hitems'.trans hpending.symm, ?_⟩
    intro p hp
    obtain ⟨cell', hcell', hrequest'⟩ := hcells p hp
    by_cases hitem : p.1 = item
    · rw [hitem] at hcell' ⊢
      obtain rfl := Option.some.inj (hcell.symm.trans hcell')
      exact ⟨new, hself, hrequest.trans hrequest'⟩
    · exact ⟨cell', (hother _ hitem).trans hcell', hrequest'⟩

/-- The mutex is unlocked, and the item is the caller's. -/
theorem unlock (h : s.Inv) (hworker : s.worker = .called item) (hcell : s.heap item = some cell) :
    State.Inv { s with
      heap := Function.update s.heap item (some { cell with mutex := .unlocked })
      worker := .testing } := by
  set s₁ : State ι δ ω κ σ := { s with
    heap := Function.update s.heap item (some { cell with mutex := .unlocked })
    worker := .testing }
  have hactive : s.active = item :: s₁.active := by
    unfold State.active
    rw [hworker]
    rfl
  have hpending : s₁.pending = s.pending := by
    unfold State.pending
    rw [hworker]
    rfl
  have hnodup := h.nodup
  rw [hactive] at hnodup
  obtain ⟨hgone, hnodup⟩ := List.nodup_cons.mp hnodup
  have hself : s₁.heap item = some { cell with mutex := .unlocked } := Function.update_self ..
  have hother : ∀ item' ≠ item, s₁.heap item' = s.heap item' := fun item' hne ↦
    Function.update_of_ne hne _ _
  have hsub : ∀ item' ∈ s₁.active, item' ∈ s.active := fun item' hitem' ↦ by
    rw [hactive]
    exact List.mem_cons_of_mem _ hitem'
  refine ⟨h.fault, h.below, h.distinct, fun item' hitem' ↦
    h.owned item' (hsub item' hitem'), hnodup,
    ?_, trivial, ?_, h.enqueued, h.returned⟩
  · intro t call hcall
    obtain ⟨hblock, cell', hcell', hrequest, hsound⟩ := h.calls t call hcall
    by_cases hitem : call.item = item
    · subst hitem
      obtain rfl := Option.some.inj (hcell.symm.trans hcell')
      have hstage : call.stage = .waiting := by
        by_contra hne
        apply h.not_active hcall hne
        rw [hactive]
        exact List.mem_cons_self
      have hanswer := h.worker
      unfold State.WorkerSound at hanswer
      rw [hworker] at hanswer
      obtain ⟨cell', hcell', hanswer⟩ := hanswer
      obtain rfl := Option.some.inj (hcell.symm.trans hcell')
      refine ⟨hblock, _, hself, hrequest, ?_⟩
      unfold Call.Sound at hsound ⊢
      rw [hstage] at hsound ⊢
      rw [hrequest] at hanswer
      exact ⟨hsound.1, .inr ⟨hgone, rfl, hanswer⟩⟩
    · refine ⟨hblock, cell', (hother _ hitem).trans hcell', hrequest, ?_⟩
      refine sound_mono hsound ?_ Iff.rfl fun _ hmem ↦ hmem
      rw [hactive, List.mem_cons, or_iff_right hitem]
  · obtain ⟨rest, hrest, hitems, hcells⟩ := h.queued
    refine ⟨rest, hrest, hitems.trans hpending.symm, ?_⟩
    intro p hp
    have hne : p.1 ≠ item := by
      rintro rfl
      apply hgone
      have hmem := List.mem_map_of_mem (f := Prod.fst) hp
      rw [hitems] at hmem
      unfold State.pending at hmem
      rw [hworker] at hmem
      exact hmem
    rw [hother _ hne]
    exact hcells p hp

/-- What `ProtobufThread` does. -/
theorem work_cases {db : ReqType → HavokRequest δ → σ → Option ω × σ} (h : s.Inv)
    (hstep : s.work db = some s') :
    (s.worker = .testing ∧ s' = { s with
      worker := if s.globalAbort then .ended else .dequeueing }) ∨
    (∃ item rest, s.worker = .dequeueing ∧ s.protobufQ = item :: rest ∧ s' = { s with
      protobufQ := rest, worker := .took item }) ∨
    (s.worker = .dequeueing ∧ s.globalAbort = true ∧ s' = { s with worker := .testing }) ∨
    (∃ item cell, s.worker = .took item ∧ s.heap item = some cell ∧ s' = { s with
      worker := .handled item (protobufHandle db cell.request s.world).1
      world := (protobufHandle db cell.request s.world).2
      handled := s.handled ++
        [⟨item, cell.request, (protobufHandle db cell.request s.world).1⟩] }) ∨
    (∃ item response cell, s.worker = .handled item response ∧ s.heap item = some cell ∧
      s' = { s with
        heap := Function.update s.heap item (some { cell with response := response })
        worker := .stored item }) ∨
    (∃ item callbacks, s.worker = .stored item ∧ s' = { s with
      worker := .called item, callbacks := callbacks }) ∨
    (∃ item cell, s.worker = .called item ∧ s.heap item = some cell ∧ s' = { s with
      heap := Function.update s.heap item (some { cell with mutex := .unlocked })
      worker := .testing }) := by
  unfold State.work at hstep
  have hheld : ∀ item, s.worker.items = [item] → item ∈ s.active := by
    intro item hitem
    unfold State.active
    rw [hitem]
    exact List.mem_cons_self
  cases hworker : s.worker with
  | testing =>
      rw [hworker] at hstep
      exact .inl ⟨rfl, (Option.some.inj hstep).symm⟩
  | dequeueing =>
      rw [hworker] at hstep
      dsimp only at hstep
      split at hstep
      · next item rest hqueue =>
          exact .inr (.inl ⟨item, rest, rfl, hqueue, (Option.some.inj hstep).symm⟩)
      · split_ifs at hstep with habort
        exact .inr (.inr (.inl ⟨rfl, habort, (Option.some.inj hstep).symm⟩))
  | took item =>
      obtain ⟨-, -, cell, -, -, -, hcell, -, hfreed, -⟩ :=
          h.untouched (hheld item (by rw [hworker]; rfl))
      rw [hworker] at hstep
      dsimp only at hstep
      rw [s.access_eq hcell, if_neg (Bool.eq_false_iff.mp hfreed)] at hstep
      exact .inr (.inr (.inr (.inl ⟨item, cell, rfl, hcell, (Option.some.inj hstep).symm⟩)))
  | handled item response =>
      obtain ⟨-, -, cell, -, -, -, hcell, -⟩ := h.untouched (hheld item (by rw [hworker]; rfl))
      rw [hworker] at hstep
      dsimp only at hstep
      rw [s.access_eq hcell] at hstep
      exact .inr (.inr (.inr (.inr (.inl
        ⟨item, response, cell, rfl, hcell, (Option.some.inj hstep).symm⟩))))
  | stored item =>
      obtain ⟨-, -, cell, -, -, -, hcell, -⟩ := h.untouched (hheld item (by rw [hworker]; rfl))
      rw [hworker] at hstep
      dsimp only at hstep
      rw [s.access_eq hcell] at hstep
      exact .inr (.inr (.inr (.inr (.inr (.inl ⟨item, _, rfl, (Option.some.inj hstep).symm⟩)))))
  | called item =>
      obtain ⟨-, -, cell, -, -, -, hcell, -, -, hmutex⟩ :=
          h.untouched (hheld item (by rw [hworker]; rfl))
      rw [hworker] at hstep
      dsimp only at hstep
      rw [s.access_eq hcell, hmutex] at hstep
      exact .inr (.inr (.inr (.inr (.inr (.inr
        ⟨item, cell, rfl, hcell, (Option.some.inj hstep).symm⟩)))))
  | orphaned item =>
      have hsound := h.worker
      unfold State.WorkerSound at hsound
      rw [hworker] at hsound
      exact hsound.elim
  | ended =>
      rw [hworker] at hstep
      cases hstep

/-- `ProtobufThread` goes on. -/
theorem work {db : ReqType → HavokRequest δ → σ → Option ω × σ} (hstep : s.work db = some s')
    (h : s.Inv) : s'.Inv := by
  have hsound := h.worker
  unfold State.WorkerSound at hsound
  have hactive : s.active = s.worker.items ++ s.protobufQ := rfl
  have hpending : s.pending = s.worker.unhandled ++ s.protobufQ := rfl
  rcases h.work_cases hstep with ⟨hworker, rfl⟩ | ⟨item, rest, hworker, hqueue, rfl⟩ |
    ⟨hworker, -, rfl⟩ | ⟨item, cell, hworker, hcell, rfl⟩ |
    ⟨item, response, cell, hworker, hcell, rfl⟩ | ⟨item, callbacks, hworker, rfl⟩ |
    ⟨item, cell, hworker, hcell, rfl⟩
  · rw [hworker] at hactive hpending
    split_ifs
    · exact h.relabel hactive.symm hpending.symm trivial
    · exact h.relabel hactive.symm hpending.symm trivial
  · rw [hworker, hqueue] at hactive hpending
    exact h.relabel hactive.symm hpending.symm trivial
  · rw [hworker] at hactive hpending
    exact h.relabel hactive.symm hpending.symm trivial
  · exact h.handle hworker hcell _ _
  · rw [hworker] at hsound hactive
    obtain ⟨cell', hcell', hanswer⟩ := hsound
    obtain rfl := Option.some.inj (hcell.symm.trans hcell')
    have hitem : item ∈ s.active := by
      rw [hactive]
      exact List.mem_cons_self
    refine h.write hitem hcell ?_ ?_ ?_ ?_ ?_ ?_
    · rfl
    · rfl
    · rfl
    · rw [hworker]
      rfl
    · rw [hworker]
      rfl
    · exact ⟨_, Function.update_self .., hanswer⟩
  · rw [hworker] at hsound hactive hpending
    exact h.relabel hactive.symm hpending.symm hsound
  · exact h.unlock hworker hcell

/-- A step keeps the invariant. -/
theorem step [DecidableEq ι] {db : ReqType → HavokRequest δ → σ → Option ω × σ}
    {e : Event ι δ κ σ} (h : s.Inv) (hblocks : e.blocks)
    (hstep : Protobuf.step db s e = some s') : s'.Inv := by
  cases e with
  | call t request callback block =>
      obtain rfl : block = true := hblocks
      exact h.begin hstep
  | caller t => exact h.caller hstep
  | worker => exact h.work hstep
  | abort | outside _ =>
      obtain rfl := Option.some.inj hstep
      exact ⟨h.fault, h.below, h.distinct, h.owned, h.nodup, h.calls, h.worker, h.queued,
        h.enqueued,
        h.returned⟩

end State.Inv

end Rendezvous

end HavokMud.Protobuf
