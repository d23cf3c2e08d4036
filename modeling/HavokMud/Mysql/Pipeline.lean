import HavokMud.Mysql.Queries
import Mathlib.Logic.Function.Basic

/-!
# The two threads of the database

`ProtobufThread` takes requests from `ProtobufQ` and runs one `db_mysql_*` function at a time, which
puts queries on `QueryQ`.  `MysqlThread` takes the queries, executes them and runs their callbacks
and chain functions.  A function that waits for its query locks a mutex twice, and a save also locks
a `ProtectedData_t` twice.
-/

namespace HavokMud.Mysql

/-! ## Requests -/

/-- The requests of `protobufHandle`.  The attributes of a saved pc are the parts that `SplitJSON`
makes of them. -/
inductive Request
  | getSetting (name : Text)
  | setSetting (name value : Text)
  | loadAccount (email : Text)
  | loadAccountByConfirm (code : Text)
  | saveAccount (account : Account)
  | getPcList (accountId : ℤ)
  | loadPc (accountId id : ℤ)
  | savePc (pc : Pc) (sources : List (Text × Text))
  | findPc (name : Text)
deriving DecidableEq

/-- Whether the caller of `protobufQueue` and the handler wait. -/
def Request.blocks : Request → Bool
  | .setSetting _ _ => false
  | _ => true

/-- Whether the function returns NULL before it queues anything. -/
def Request.refused : Request → Bool
  | .getPcList accountId => accountId = 0
  | .loadPc accountId id => accountId = 0 ∨ id = 0
  | _ => false

/-- A request on `ProtobufQ`. -/
structure Call where
  client : ℕ
  request : Request
deriving DecidableEq

/-- A request in the hands of `ProtobufThread`, which numbers the requests it takes. -/
structure Job extends Call where
  number : ℕ
deriving DecidableEq

/-- A save that has returned, with the id of its response. -/
structure Saved where
  number : ℕ
  request : Request
  id : ℤ
deriving DecidableEq

/-! ## Threads -/

/-- An element of `QueryQ`: a query, the request it belongs to, whether it has a mutex, and the
saves that had returned when it was queued. -/
structure Item where
  query : Query
  job : ℕ
  mutex : Bool
  saved : List Saved
deriving DecidableEq

/-- The calls of `db_queue_query` in a function. -/
inductive Stage
  /-- The first or only one. -/
  | row
  /-- The attributes of the pc that was loaded. -/
  | attribs (pc : Result)
  /-- A source of the pc that was saved as `id`, with the sources left behind it. -/
  | source (id : ℤ) (source : Text × Text) (left : List (Text × Text))
deriving DecidableEq

inductive Response
  | null
  | rows (rows : Option Result)
  | pc (pc : Result) (attribs : Option Result)
  | saved (id : ℤ)
deriving DecidableEq

/-- Where `ProtobufThread` stands. -/
inductive Handler
  | idle
  /-- Before `db_queue_query`. -/
  | ready (job : Job) (stage : Stage)
  /-- In the second lock of the mutex. -/
  | locked (job : Job) (stage : Stage)
  /-- In the second lock of the `ProtectedData_t`. -/
  | protect (job : Job)
  | returning (job : Job) (response : Response)
deriving DecidableEq

/-- Where `MysqlThread` stands. -/
inductive Worker
  | idle
  | took (item : Item)
  | ran (item : Item) (result : Result)
  /-- Behind the callback or chain function. -/
  | called (item : Item)
deriving DecidableEq

/-- A call of `pb_set_setting`. -/
structure SetCall where
  client : ℕ
  name : Text
  value : Text
deriving DecidableEq

structure State where
  db : Database
  protobufQ : List Call
  queryQ : List Item
  handler : Handler
  worker : Worker
  /-- The mutex can be locked a second time. -/
  mutexFree : Bool
  /-- The `ProtectedData_t` can be locked a second time. -/
  protectFree : Bool
  /-- What the `ProtectedData_t` points to. -/
  id : ℤ
  resp : Option Result
  /-- The callers in `protobufQueue`. -/
  blocked : ℕ → Bool
  taken : ℕ
  /-- The calls of `pb_set_setting` so far. -/
  sets : List SetCall
  /-- The saves that have returned so far. -/
  saved : List Saved
  /-- The statements executed so far. -/
  log : List (Item × Result)

def State.initial (db : Database) : State :=
  ⟨db, [], [], .idle, .idle, false, false, 0, none, fun _ ↦ false, 0, [], [], []⟩

/-! ## The functions `db_mysql_*` -/

/-- The query of the first call of `db_queue_query`. -/
def Request.query : Request → Query
  | .getSetting name => .getSetting name
  | .setSetting name value => .checkSetting name value
  | .loadAccount email => .loadAccount email
  | .loadAccountByConfirm code => .loadAccountByConfirm code
  | .saveAccount account => .checkAccount account
  | .getPcList accountId => .getPcList accountId
  | .loadPc accountId id => .loadPc accountId id
  | .savePc pc _ => .checkPc pc
  | .findPc name => .findPc name

/-- The argument of `db_mysql_load_pc_attribs`. -/
def Request.pcId : Request → ℤ
  | .loadPc _ id => id
  | _ => 0

def Job.query (job : Job) : Stage → Query
  | .row => job.request.query
  | .attribs _ => .loadPcAttribs job.request.pcId
  | .source id source _ => .checkPcAttribs ⟨id, source.1, source.2⟩

def Job.start (job : Job) : Handler :=
  if job.request.refused then .returning job .null else .ready job .row

/-- The loop of `db_mysql_save_pc_attribs`. -/
def Job.nextSource (job : Job) (id : ℤ) : List (Text × Text) → Handler
  | [] => .returning job (.saved id)
  | source :: left => .ready job (.source id source left)

/-- Behind the mutex.  `db_mysql_load_pc` follows a NULL pointer when it finds no pc. -/
def Job.afterMutex (job : Job) (resp : Option Result) : Stage → Option Handler
  | .row =>
      match job.request, resp with
      | .saveAccount _, _ => some (.protect job)
      | .savePc _ _, _ => some (.protect job)
      | .loadPc _ _, some pc => if pc.count = 0 then none else some (.ready job (.attribs pc))
      | .loadPc _ _, none => none
      | _, _ => some (.returning job (.rows resp))
  | .attribs pc => some (.returning job (.pc pc resp))
  | .source id _ left => some (job.nextSource id left)

/-- Behind the `ProtectedData_t`. -/
def Job.afterProtect (job : Job) (id : ℤ) : Handler :=
  match job.request with
  | .savePc _ sources => if id = 0 then .returning job (.saved id) else job.nextSource id sources
  | _ => .returning job (.saved id)

/-! ## Callbacks and chain functions -/

/-- The callback or chain function of a query. -/
def State.call (s : State) (item : Item) (result : Result) : State :=
  match item.query.chain result.count with
  | some query =>
      let found := decide (result.count ≠ 0)
      let queued := { s with
        queryQ := s.queryQ ++ [{ item with query := query, mutex := false }] }
      match item.query with
      | .checkAccount account =>
          { queued with id := account.id, protectFree := s.protectFree || found }
      | .checkPc pc =>
          { queued with id := if found then pc.id else 0, protectFree := s.protectFree || found }
      | _ => queued
  | none =>
      match item.query, result with
      | .insertAccount _, .done insertid | .insertPc _, .done insertid =>
          if insertid = 0 then s else { s with id := insertid, protectFree := true }
      | _, .done _ => s
      | _, rows => { s with resp := some rows }

/-! ## Steps -/

/-- The call of `pb_set_setting` that a request is. -/
def Request.setCall (client : ℕ) : Request → List SetCall
  | .setSetting name value => [⟨client, name, value⟩]
  | _ => []

/-- The save that returns with a response. -/
def Job.saved (job : Job) : Response → List Saved
  | .saved id => [⟨job.number, job.request, id⟩]
  | _ => []

inductive Action
  /-- A thread calls one of the `pb_*` functions. -/
  | issue (client : ℕ) (request : Request)
  /-- `ProtobufThread`. -/
  | take | enqueue | resume | respond
  /-- `MysqlThread`. -/
  | dequeue | query | call | unlock
deriving DecidableEq

/-- `protobufQueue` up to the lock it waits for. -/
def State.issue (s : State) (client : ℕ) (request : Request) : Option State :=
  if s.blocked client then none
  else some { s with
    protobufQ := s.protobufQ ++ [⟨client, request⟩]
    blocked := Function.update s.blocked client request.blocks
    sets := s.sets ++ request.setCall client }

def State.take (s : State) : Option State :=
  match s.handler, s.protobufQ with
  | .idle, request :: rest => some { s with
      protobufQ := rest
      handler := Job.start ⟨request, s.taken⟩
      taken := s.taken + 1 }
  | _, _ => none

/-- `db_queue_query`, behind the first lock of the `ProtectedData_t`. -/
def State.enqueue (s : State) : Option State :=
  match s.handler with
  | .ready job stage => some { s with
      queryQ := s.queryQ ++ [⟨job.query stage, job.number, job.request.blocks, s.saved⟩]
      handler := if job.request.blocks then .locked job stage else .returning job .null
      mutexFree := false
      protectFree := if stage = .row then false else s.protectFree }
  | _ => none

def State.resume (s : State) : Option State :=
  match s.handler with
  | .locked job stage =>
      if s.mutexFree then (job.afterMutex s.resp stage).map fun h ↦ { s with handler := h }
      else none
  | .protect job => if s.protectFree then some { s with handler := job.afterProtect s.id } else none
  | _ => none

/-- The end of the loop of `ProtobufThread`. -/
def State.respond (s : State) : Option State :=
  match s.handler with
  | .returning job response => some { s with
      handler := .idle
      blocked :=
        if job.request.blocks then Function.update s.blocked job.client false else s.blocked
      saved := s.saved ++ job.saved response }
  | _ => none

def State.dequeue (s : State) : Option State :=
  match s.worker, s.queryQ with
  | .idle, item :: rest => some { s with queryQ := rest, worker := .took item }
  | _, _ => none

def State.unlock (s : State) : Option State :=
  match s.worker with
  | .called item => some { s with worker := .idle, mutexFree := s.mutexFree || item.mutex }
  | _ => none

/-- One step of one thread.  A query that fails has no step. -/
def step (collate : Text → Text) (s : State) : Action → Option State
  | .issue client request => s.issue client request
  | .take => s.take
  | .enqueue => s.enqueue
  | .resume => s.resume
  | .respond => s.respond
  | .dequeue => s.dequeue
  | .query =>
      match s.worker with
      | .took item =>
          (execute collate s.db item.query).map fun r ↦
            { s with db := r.1, worker := .ran item r.2, log := s.log ++ [(item, r.2)] }
      | _ => none
  | .call =>
      match s.worker with
      | .ran item result => some { s.call item result with worker := .called item }
      | _ => none
  | .unlock => s.unlock

/-- The states reached by steps that meet `guard`. -/
inductive Run (collate : Text → Text) (guard : State → Action → Prop) : State → Prop
  | start (db : Database) : Run collate guard (.initial db)
  | next {s s' : State} {a : Action} : Run collate guard s → guard s a →
      step collate s a = some s' → Run collate guard s'

/-- The state behind a list of steps that meet `guard`. -/
def replay (collate : Text → Text) (guard : State → Action → Prop)
    [∀ s a, Decidable (guard s a)] : State → List Action → Option State
  | s, [] => some s
  | s, a :: rest =>
      if guard s a then (step collate s a).bind (replay collate guard · rest) else none

theorem run_of_replay {collate : Text → Text} {guard : State → Action → Prop}
    [∀ s a, Decidable (guard s a)] {s s' : State} {acts : List Action}
    (hrun : Run collate guard s) (h : replay collate guard s acts = some s') :
    Run collate guard s' := by
  induction acts generalizing s with
  | nil =>
      cases h
      exact hrun
  | cons a acts ih =>
      simp only [replay] at h
      split_ifs at h with hguard
      obtain ⟨s₁, hstep, hrest⟩ := Option.bind_eq_some_iff.mp h
      exact ih (hrun.next hguard hstep) hrest

end HavokMud.Mysql
