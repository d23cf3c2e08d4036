import Mathlib.Data.Nat.Notation
import Mathlib.Logic.Function.Basic
import Mathlib.Logic.Relation

/-!
# Requests and their thread

A thread that calls `protobufQueue` puts an item on `ProtobufQ` and, if it is to block, locks the
mutex of the item twice.  `ProtobufThread` handles one item after the other and unlocks their
mutexes.  The caller then takes the response out of the item and destroys it.  Every access to
memory that was freed is a fault.
-/

namespace HavokMud.Protobuf

/-! ## Requests -/

/-- `ReqType`. -/
inductive ReqType
  | getSetting | setSetting | loadAccount | saveAccount | getPcList | loadPc | savePc | findPc
  | loadAccountByConfirm
  | other (number : ℕ)
deriving DecidableEq

/-- `HavokRequest`, with any kind of data. -/
structure HavokRequest (δ : Type) where
  protocolVersion : UInt32
  requestType : ReqType
  settingsData : Option δ
  accountData : Option δ
  pcData : Option δ

/-- The data without which a request is not handled. -/
def HavokRequest.data {δ : Type} (req : HavokRequest δ) : Option δ :=
  match req.requestType with
  | .getSetting | .setSetting => req.settingsData
  | .loadAccount | .loadAccountByConfirm | .saveAccount | .getPcList => req.accountData
  | .loadPc | .savePc | .findPc => req.pcData
  | .other _ => none

/-- `protobufHandle`, with the `db_*` functions as `db`. -/
def protobufHandle {δ ω σ : Type} (db : ReqType → HavokRequest δ → σ → Option ω × σ)
    (req : HavokRequest δ) (world : σ) : Option ω × σ :=
  if req.protocolVersion ≠ 1 then (none, world)
  else if req.data.isNone then (none, world)
  else db req.requestType req world

/-! ## Items -/

/-- What the mutex of an item points to. -/
inductive Mutex
  | null | locked | unlocked | freed
deriving DecidableEq

/-- `ProtobufItem_t`.  A callback stands for the function with its argument. -/
structure ProtobufItem (δ ω κ : Type) where
  request : HavokRequest δ
  requestFreed : Bool
  response : Option ω
  callback : Option κ
  mutex : Mutex

/-- Where a call of `protobufQueue` stands. -/
inductive Stage (ω : Type)
  | created
  /-- In the second lock of the mutex. -/
  | waiting
  | locked
  /-- In `protobufDestroyItem`. -/
  | answered (response : Option ω)
  | emptied (response : Option ω)
  | released (response : Option ω)
  | bare (response : Option ω)

/-- A call of `protobufQueue`. -/
structure Call (δ ω : Type) where
  item : ℕ
  request : HavokRequest δ
  block : Bool
  stage : Stage ω

/-- Where `ProtobufThread` stands. -/
inductive Worker (ω : Type)
  | testing
  | dequeueing
  | took (item : ℕ)
  | handled (item : ℕ) (response : Option ω)
  | stored (item : ℕ)
  | called (item : ℕ)
  | orphaned (item : ℕ)
  | ended

/-- A request with its response. -/
structure Answer (δ ω : Type) where
  item : ℕ
  request : HavokRequest δ
  response : Option ω

def Answer.key {δ ω : Type} (answer : Answer δ ω) : ℕ × HavokRequest δ :=
  (answer.item, answer.request)

structure State (ι δ ω κ σ : Type) where
  /-- The items that are allocated.  No address is used twice. -/
  heap : ℕ → Option (ProtobufItem δ ω κ)
  created : ℕ
  protobufQ : List ℕ
  calls : ι → Option (Call δ ω)
  worker : Worker ω
  /-- What the `db_*` functions read and write. -/
  world : σ
  globalAbort : Bool
  fault : Bool
  /-- The items that were enqueued so far. -/
  enqueued : List (ℕ × HavokRequest δ)
  /-- What `protobufHandle` has computed so far. -/
  handled : List (Answer δ ω)
  /-- What the blocking calls have returned so far. -/
  returned : List (Answer δ ω)
  /-- The callbacks so far. -/
  callbacks : List (κ × Option ω)

/-- A thread calls `protobufQueue`, goes on in its call, `ProtobufThread` goes on, the program
begins to shut down, or its other threads do something. -/
inductive Event (ι δ κ σ : Type)
  | call (t : ι) (request : HavokRequest δ) (callback : Option κ) (block : Bool)
  | caller (t : ι)
  | worker
  | abort
  | outside (world : σ)

section Steps

variable {ι δ ω κ σ : Type} [DecidableEq ι]

def State.initial (world : σ) : State ι δ ω κ σ :=
  ⟨fun _ ↦ none, 0, [], fun _ ↦ none, .testing, world, false, false, [], [], [], []⟩

/-- An access to an item. -/
def State.access (s : State ι δ ω κ σ) (item : ℕ)
    (f : ProtobufItem δ ω κ → Option (State ι δ ω κ σ)) : Option (State ι δ ω κ σ) :=
  match s.heap item with
  | some cell => f cell
  | none => some { s with fault := true }

/-- A call writes its item and goes on. -/
def State.advance (s : State ι δ ω κ σ) (t : ι) (call : Call δ ω) (cell : ProtobufItem δ ω κ)
    (stage : Stage ω) : State ι δ ω κ σ :=
  { s with
    heap := Function.update s.heap call.item (some cell)
    calls := Function.update s.calls t (some { call with stage := stage }) }

/-- `protobufQueue` up to its first lock, with memory for the item. -/
def State.call (s : State ι δ ω κ σ) (t : ι) (request : HavokRequest δ) (callback : Option κ)
    (block : Bool) : Option (State ι δ ω κ σ) :=
  match s.calls t with
  | some _ => none
  | none => some { s with
      heap := Function.update s.heap s.created
        (some ⟨request, false, none, callback, if block then .locked else .null⟩)
      created := s.created + 1
      calls := Function.update s.calls t (some ⟨s.created, request, block, .created⟩) }

/-- `protobufQueue` behind its first lock. -/
def State.caller (s : State ι δ ω κ σ) (t : ι) : Option (State ι δ ω κ σ) :=
  match s.calls t with
  | none => none
  | some call =>
      match call.stage with
      | .created => some { s with
          protobufQ := s.protobufQ ++ [call.item]
          enqueued := s.enqueued ++ [(call.item, call.request)]
          calls := Function.update s.calls t
            (if call.block then some { call with stage := .waiting } else none) }
      | .waiting => s.access call.item fun cell ↦
          match cell.mutex with
          | .unlocked => some (s.advance t call { cell with mutex := .locked } .locked)
          | .locked => none
          | _ => some { s with fault := true }
      | .locked => s.access call.item fun cell ↦
          some (s.advance t call cell (.answered cell.response))
      | .answered response => s.access call.item fun cell ↦
          if cell.requestFreed then some { s with fault := true }
          else some (s.advance t call { cell with requestFreed := true } (.emptied response))
      | .emptied response => s.access call.item fun cell ↦
          match cell.mutex with
          | .null | .freed => some { s with fault := true }
          | _ => some (s.advance t call { cell with mutex := .unlocked } (.released response))
      | .released response => s.access call.item fun cell ↦
          match cell.mutex with
          | .unlocked => some (s.advance t call { cell with mutex := .freed } (.bare response))
          | _ => some { s with fault := true }
      | .bare response => s.access call.item fun _ ↦ some { s with
          heap := Function.update s.heap call.item none
          calls := Function.update s.calls t none
          returned := s.returned ++ [⟨call.item, call.request, response⟩] }

/-- `ProtobufThread`. -/
def State.work (db : ReqType → HavokRequest δ → σ → Option ω × σ) (s : State ι δ ω κ σ) :
    Option (State ι δ ω κ σ) :=
  match s.worker with
  | .testing => some { s with worker := if s.globalAbort then .ended else .dequeueing }
  | .dequeueing =>
      match s.protobufQ with
      | item :: rest => some { s with protobufQ := rest, worker := .took item }
      | [] => if s.globalAbort then some { s with worker := .testing } else none
  | .took item => s.access item fun cell ↦
      if cell.requestFreed then some { s with fault := true }
      else
        let result := protobufHandle db cell.request s.world
        some { s with
          worker := .handled item result.1
          world := result.2
          handled := s.handled ++ [⟨item, cell.request, result.1⟩] }
  | .handled item response => s.access item fun cell ↦ some { s with
      heap := Function.update s.heap item (some { cell with response := response })
      worker := .stored item }
  | .stored item => s.access item fun cell ↦ some { s with
      worker := .called item
      callbacks := s.callbacks ++
        (cell.callback.map fun callback ↦ (callback, cell.response)).toList }
  | .called item => s.access item fun cell ↦
      match cell.mutex with
      | .freed => some { s with fault := true }
      | .null =>
          if cell.requestFreed then some { s with fault := true }
          else some { s with heap := Function.update s.heap item none, worker := .orphaned item }
      | _ => some { s with
          heap := Function.update s.heap item (some { cell with mutex := .unlocked })
          worker := .testing }
  -- the response is read from the item that was just destroyed
  | .orphaned item => s.access item fun _ ↦ some { s with worker := .testing }
  | .ended => none

def step (db : ReqType → HavokRequest δ → σ → Option ω × σ) (s : State ι δ ω κ σ) :
    Event ι δ κ σ → Option (State ι δ ω κ σ)
  | .call t request callback block => s.call t request callback block
  | .caller t => s.caller t
  | .worker => s.work db
  | .abort => some { s with globalAbort := true }
  | .outside world => some { s with world := world }

/-- All calls block. -/
def Event.blocks : Event ι δ κ σ → Prop
  | .call _ _ _ block => block = true
  | _ => True

/-- A step in which no thread calls without blocking. -/
def BlockingStep (db : ReqType → HavokRequest δ → σ → Option ω × σ)
    (s s' : State ι δ ω κ σ) : Prop :=
  ∃ e : Event ι δ κ σ, e.blocks ∧ step db s e = some s'

end Steps

end HavokMud.Protobuf
