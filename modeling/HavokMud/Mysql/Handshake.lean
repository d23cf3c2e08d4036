import HavokMud.Mysql.Pipeline

/-!
# The handshake between the threads

At most one query in flight has a mutex, and `ProtobufThread` waits for exactly that query.  What
travels without a mutex is the check of a setting or a write that a chain function queued.
-/

namespace HavokMud.Mysql

/-! ## What a step does -/

/-- The query a chain function queues. -/
def Item.chained (item : Item) (result : Result) : List Item :=
  (item.query.chain result.count).toList.map fun query ↦
    { item with query := query, mutex := false }

/-- The steps with the states they start from and lead to. -/
inductive Effect (collate : Text → Text) (s : State) : Action → State → Prop
  | issue {client : ℕ} (request : Request) (hfree : s.blocked client = false) :
      Effect collate s (.issue client request) { s with
        protobufQ := s.protobufQ ++ [⟨client, request⟩]
        blocked := Function.update s.blocked client request.blocks
        sets := s.sets ++ request.setCall client }
  | take {call : Call} {rest : List Call} (hidle : s.handler = .idle)
      (hqueue : s.protobufQ = call :: rest) :
      Effect collate s .take { s with
        protobufQ := rest, handler := Job.start ⟨call, s.taken⟩, taken := s.taken + 1 }
  | enqueue {job : Job} {stage : Stage} (hready : s.handler = .ready job stage) :
      Effect collate s .enqueue { s with
        queryQ := s.queryQ ++ [⟨job.query stage, job.number, job.request.blocks, s.saved⟩]
        handler := if job.request.blocks then .locked job stage else .returning job .null
        mutexFree := false
        protectFree := if stage = .row then false else s.protectFree }
  | pass {job : Job} {stage : Stage} {h : Handler} (hlocked : s.handler = .locked job stage)
      (hfree : s.mutexFree = true) (hnext : job.afterMutex s.resp stage = some h) :
      Effect collate s .resume { s with handler := h }
  | passProtect {job : Job} (hprotect : s.handler = .protect job) (hfree : s.protectFree = true) :
      Effect collate s .resume { s with handler := job.afterProtect s.id }
  | respond {job : Job} {response : Response} (hreturning : s.handler = .returning job response) :
      Effect collate s .respond { s with
        handler := .idle
        blocked := if job.request.blocks then Function.update s.blocked job.client false
          else s.blocked
        saved := s.saved ++ job.saved response }
  | dequeue {item : Item} {rest : List Item} (hidle : s.worker = .idle)
      (hqueue : s.queryQ = item :: rest) :
      Effect collate s .dequeue { s with queryQ := rest, worker := .took item }
  | query {item : Item} {db : Database} {result : Result} (htook : s.worker = .took item)
      (hrun : execute collate s.db item.query = some (db, result)) :
      Effect collate s .query { s with
        db := db, worker := .ran item result, log := s.log ++ [(item, result)] }
  | call {item : Item} {result : Result} (hran : s.worker = .ran item result) :
      Effect collate s .call { s.call item result with worker := .called item }
  | unlock {item : Item} (hcalled : s.worker = .called item) :
      Effect collate s .unlock { s with worker := .idle, mutexFree := s.mutexFree || item.mutex }

variable {collate : Text → Text} {s s' : State} {a : Action}

theorem effect_of_step (h : step collate s a = some s') : Effect collate s a s' := by
  cases a with
  | issue client request =>
      simp only [step, State.issue] at h
      cases hfree : s.blocked client with
      | true => simp [hfree] at h
      | false =>
          obtain rfl := by simpa [hfree] using h
          exact .issue request hfree
  | take =>
      simp only [step, State.take] at h
      split at h
      · next hidle hqueue =>
          obtain rfl := Option.some.inj h
          exact .take hidle hqueue
      · cases h
  | enqueue =>
      simp only [step, State.enqueue] at h
      split at h
      · next hready =>
          obtain rfl := Option.some.inj h
          exact .enqueue hready
      · cases h
  | resume =>
      simp only [step, State.resume] at h
      split at h
      · next hlocked =>
          split_ifs at h with hfree
          obtain ⟨next, hnext, rfl⟩ := Option.map_eq_some_iff.mp h
          exact .pass hlocked hfree hnext
      · next hprotect =>
          split_ifs at h with hfree
          obtain rfl := Option.some.inj h
          exact .passProtect hprotect hfree
      · cases h
  | respond =>
      simp only [step, State.respond] at h
      split at h
      · next hreturning =>
          obtain rfl := Option.some.inj h
          exact .respond hreturning
      · cases h
  | dequeue =>
      simp only [step, State.dequeue] at h
      split at h
      · next hidle hqueue =>
          obtain rfl := Option.some.inj h
          exact .dequeue hidle hqueue
      · cases h
  | query =>
      simp only [step] at h
      split at h
      · next htook =>
          obtain ⟨⟨db, result⟩, hrun, rfl⟩ := Option.map_eq_some_iff.mp h
          exact .query htook hrun
      · cases h
  | call =>
      simp only [step] at h
      split at h
      · next hran =>
          obtain rfl := Option.some.inj h
          exact .call hran
      · cases h
  | unlock =>
      simp only [step, State.unlock] at h
      split at h
      · next hcalled =>
          obtain rfl := Option.some.inj h
          exact .unlock hcalled
      · cases h

/-- An invariant of the steps holds in every run. -/
theorem Run.invariant {guard : State → Action → Prop} {P : State → Prop}
    (hinit : ∀ db, P (.initial db))
    (hstep : ∀ {s a s'}, Run collate guard s → guard s a → Effect collate s a s' → P s → P s')
    (hrun : Run collate guard s) : P s := by
  induction hrun with
  | start db => exact hinit db
  | next hrun hguard h ih => exact hstep hrun hguard (effect_of_step h) ih

/-! ## Callbacks and chain functions -/

section Calls

variable (s : State) (item : Item) (result : Result)

theorem call_queryQ : (s.call item result).queryQ = s.queryQ ++ item.chained result := by
  unfold State.call Item.chained
  split
  · next query hchain =>
      split <;> simp [hchain]
  · next hchain =>
      rw [hchain]
      split <;> try split_ifs
      all_goals simp

/-- A callback or chain function leaves everything but the queue, the id and the response. -/
theorem call_eq : ∃ id protectFree resp, s.call item result =
    { s with queryQ := s.queryQ ++ item.chained result, id, protectFree, resp } := by
  have hqueue := call_queryQ s item result
  unfold State.call at hqueue ⊢
  split at hqueue
  · split at hqueue <;> exact ⟨_, _, _, by rw [← hqueue]⟩
  · split at hqueue
    · split_ifs at hqueue ⊢ <;> exact ⟨_, _, _, by rw [← hqueue]⟩
    · split_ifs at hqueue ⊢ <;> exact ⟨_, _, _, by rw [← hqueue]⟩
    · exact ⟨_, _, _, by rw [← hqueue]⟩
    · exact ⟨_, _, _, by rw [← hqueue]⟩

end Calls

/-! ## Queries in flight -/

def Worker.items : Worker → List Item
  | .idle => []
  | .took item => [item]
  | .ran item _ => [item]
  | .called item => [item]

/-- The query that is not executed yet. -/
def Worker.unrun : Worker → List Item
  | .took item => [item]
  | _ => []

/-- The query whose chain function has not run yet. -/
def Worker.unchained : Worker → List Item
  | .took item => [item]
  | .ran item _ => [item]
  | _ => []

/-- The queries that `MysqlThread` has not finished. -/
def State.inFlight (s : State) : List Item :=
  s.worker.items ++ s.queryQ

def Query.isWrite : Query → Bool
  | .updateSetting _ _ | .insertSetting _ _ | .updateAccount _ | .insertAccount _ | .updatePc _
  | .insertPc _ | .updatePcAttribs _ | .insertPcAttribs _ => true
  | _ => false

/-- The queries that are queued without a mutex. -/
def Query.isPlain : Query → Bool
  | .checkSetting _ _ => true
  | query => query.isWrite

/-- The request in the hands of `ProtobufThread`. -/
def Handler.job : Handler → List Job
  | .idle => []
  | .ready job _ | .locked job _ | .protect job | .returning job _ => [job]

def Handler.isLocked : Handler → Bool
  | .locked _ _ => true
  | _ => false

/-- `ProtobufThread` waits for a mutex that `MysqlThread` has to unlock. -/
def State.waits (s : State) : Bool :=
  s.handler.isLocked && !s.mutexFree

structure Handshake (s : State) : Prop where
  single : s.inFlight.countP Item.mutex = if s.waits then 1 else 0
  owner : ∀ item ∈ s.inFlight, item.mutex = true → ∃ job stage, s.handler = .locked job stage ∧
    item.query = job.query stage ∧ item.job = job.number
  plain : ∀ item ∈ s.inFlight, item.mutex = false → item.query.isPlain = true
  blocks : ∀ job stage,
    s.handler = .locked job stage ∨ s.handler = .ready job stage ∧ stage ≠ .row →
    job.request.blocks = true

variable {item : Item} {result : Result}

theorem isWrite_of_chain {q q' : Query} {count : ℕ} (h : q.chain count = some q') :
    q'.isWrite = true := by
  cases q <;> simp only [Query.chain, reduceCtorEq, Option.some.injEq] at h <;> subst h <;>
    split_ifs <;> rfl

theorem mem_chained {item' : Item} (h : item' ∈ item.chained result) :
    item'.mutex = false ∧ item'.query.isWrite = true ∧ item'.job = item.job ∧
      item'.saved = item.saved ∧ item.query.chain result.count = some item'.query := by
  unfold Item.chained at h
  obtain ⟨query, hquery, rfl⟩ := List.mem_map.mp h
  have hchain := Option.mem_toList.mp hquery
  exact ⟨rfl, isWrite_of_chain hchain, rfl, rfl, hchain⟩

theorem isPlain_of_isWrite {q : Query} (h : q.isWrite = true) : q.isPlain = true := by
  cases q <;> first | rfl | exact absurd h Bool.false_ne_true

theorem start_job (job : Job) : job.start.job = [job] := by
  unfold Job.start
  split_ifs <;> rfl

theorem nextSource_job (job : Job) (id : ℤ) (left : List (Text × Text)) :
    (job.nextSource id left).job = [job] := by
  cases left <;> rfl

theorem afterMutex_job {job : Job} {resp : Option Result} {stage : Stage} {next : Handler}
    (hnext : job.afterMutex resp stage = some next) : next.job = [job] := by
  cases stage with
  | row =>
      simp only [Job.afterMutex] at hnext
      split at hnext <;> try split_ifs at hnext
      all_goals first | cases hnext; rfl | cases hnext
  | attribs pc =>
      cases hnext
      rfl
  | source id source left =>
      cases hnext
      exact nextSource_job job id left

theorem afterProtect_job (job : Job) (id : ℤ) : (job.afterProtect id).job = [job] := by
  unfold Job.afterProtect
  split
  · split_ifs
    · rfl
    · exact nextSource_job ..
  · rfl

theorem nextSource_isLocked (job : Job) (id : ℤ) (left : List (Text × Text)) :
    (job.nextSource id left).isLocked = false := by
  cases left <;> rfl

theorem afterMutex_isLocked {job : Job} {resp : Option Result} {stage : Stage} {h : Handler}
    (hnext : job.afterMutex resp stage = some h) : h.isLocked = false := by
  cases stage with
  | row =>
      simp only [Job.afterMutex] at hnext
      split at hnext <;> try split_ifs at hnext
      all_goals first | cases hnext; rfl | cases hnext
  | attribs pc =>
      cases hnext
      rfl
  | source id source left =>
      cases hnext
      exact nextSource_isLocked job id left

theorem afterProtect_isLocked (job : Job) (id : ℤ) : (job.afterProtect id).isLocked = false := by
  unfold Job.afterProtect
  split
  · split_ifs
    · rfl
    · exact nextSource_isLocked ..
  · rfl

theorem start_isLocked (job : Job) : job.start.isLocked = false := by
  unfold Job.start
  split_ifs <;> rfl

namespace Handshake

/-- While `ProtobufThread` does not wait no query in flight has a mutex. -/
theorem no_mutex (h : Handshake s) (hwaits : s.waits = false) {item : Item}
    (hitem : item ∈ s.inFlight) : item.mutex = false := by
  have hcount := h.single
  rw [hwaits, if_neg Bool.false_ne_true, List.countP_eq_zero] at hcount
  simpa using hcount item hitem

/-- A step that keeps the queries in flight and leaves `ProtobufThread` not waiting. -/
theorem of_not_waiting (h : Handshake s) (hflight : s'.inFlight = s.inFlight)
    (hwaits : s.waits = false) (hlocked : s'.handler.isLocked = false)
    (hready : ∀ job stage, s'.handler = .ready job stage → stage ≠ .row →
      job.request.blocks = true) : Handshake s' := by
  have hwaits' : s'.waits = false := by rw [State.waits, hlocked, Bool.false_and]
  constructor
  · rw [hflight, h.single, hwaits, hwaits']
  · intro item hitem hmutex
    rw [hflight] at hitem
    rw [h.no_mutex hwaits hitem] at hmutex
    cases hmutex
  · rw [hflight]
    exact h.plain
  · rintro job stage (hhandler | ⟨hhandler, hstage⟩)
    · rw [hhandler] at hlocked
      cases hlocked
    · exact hready job stage hhandler hstage

theorem initial (db : Database) : Handshake (.initial db) where
  single := rfl
  owner _ hitem := absurd hitem List.not_mem_nil
  plain _ hitem := absurd hitem List.not_mem_nil
  blocks _ _ hhandler := by rcases hhandler with hlocked | ⟨hready, -⟩ <;> contradiction

/-- The query that `db_queue_query` puts on the queue. -/
theorem enqueued (h : Handshake s) {job : Job} {stage : Stage}
    (hready : s.handler = .ready job stage) (hflight : s'.inFlight =
      s.inFlight ++ [⟨job.query stage, job.number, job.request.blocks, s.saved⟩])
    (hhandler : s'.handler =
      if job.request.blocks then .locked job stage else .returning job .null)
    (hfree : s'.mutexFree = false) : Handshake s' := by
  have hwaits : s.waits = false := by
    rw [State.waits, hready]
    rfl
  have hwaits' : s'.waits = job.request.blocks := by
    rw [State.waits, hhandler, hfree]
    cases job.request.blocks <;> rfl
  have hmem (item : Item) (hitem : item ∈ s'.inFlight) : item ∈ s.inFlight ∨
      item = ⟨job.query stage, job.number, job.request.blocks, s.saved⟩ := by
    simpa [hflight] using hitem
  constructor
  · have hsingle := h.single
    rw [hwaits, if_neg Bool.false_ne_true] at hsingle
    rw [hflight, List.countP_append, hsingle, hwaits']
    cases job.request.blocks <;> rfl
  · intro item hitem hmutex
    rcases hmem item hitem with hold | rfl
    · rw [h.no_mutex hwaits hold] at hmutex
      cases hmutex
    · exact ⟨job, stage, by rw [hhandler, if_pos hmutex], rfl, rfl⟩
  · intro item hitem hmutex
    rcases hmem item hitem with hold | rfl
    · exact h.plain item hold hmutex
    · -- only `db_mysql_set_setting` does not wait, and it has one query
      have hstage : stage = .row := by
        by_contra hne
        rw [h.blocks job stage (Or.inr ⟨hready, hne⟩)] at hmutex
        cases hmutex
      subst hstage
      have hblocks : job.request.blocks = false := hmutex
      unfold Job.query Request.query
      cases hrequest : job.request <;> simp_all [Request.blocks, Query.isPlain]
  · intro job' stage' hor
    rw [hhandler] at hor
    cases hblocks : job.request.blocks with
    | true =>
        rw [hblocks] at hor
        rcases hor with hlocked | ⟨hready', -⟩
        · cases hlocked
          exact hblocks
        · cases hready'
    | false =>
        rw [hblocks] at hor
        rcases hor with hlocked | ⟨hready', -⟩ <;> contradiction

/-- A callback or chain function. -/
theorem called (h : Handshake s) (item : Item) (result : Result)
    (hflight : s'.inFlight = s.inFlight ++ item.chained result) (hhandler : s'.handler = s.handler)
    (hfree : s'.mutexFree = s.mutexFree) : Handshake s' := by
  have hwaits : s'.waits = s.waits := by rw [State.waits, hhandler, hfree, State.waits]
  constructor
  · have hcount : (item.chained result).countP Item.mutex = 0 :=
      List.countP_eq_zero.mpr fun item' hitem ↦ by simp [(mem_chained hitem).1]
    rw [hflight, List.countP_append, hcount, Nat.add_zero, hwaits, h.single]
  · intro item' hitem hmutex
    rw [hflight] at hitem
    rw [hhandler]
    rcases List.mem_append.mp hitem with hold | hnew
    · exact h.owner item' hold hmutex
    · rw [(mem_chained hnew).1] at hmutex
      cases hmutex
  · intro item' hitem hmutex
    rw [hflight] at hitem
    rcases List.mem_append.mp hitem with hold | hnew
    · exact h.plain item' hold hmutex
    · exact isPlain_of_isWrite (mem_chained hnew).2.1
  · rw [hhandler]
    exact h.blocks

/-- `MysqlThread` unlocks the mutex of a query. -/
theorem unlocked (h : Handshake s) (item : Item) (hflight : s.inFlight = item :: s'.inFlight)
    (hhandler : s'.handler = s.handler) (hfree : s'.mutexFree = (s.mutexFree || item.mutex)) :
    Handshake s' := by
  have hmem (item' : Item) (hitem : item' ∈ s'.inFlight) : item' ∈ s.inFlight := by
    rw [hflight]
    exact List.mem_cons_of_mem _ hitem
  have hsingle := h.single
  rw [hflight, List.countP_cons] at hsingle
  constructor
  · cases hmutex : item.mutex with
    | false =>
        have hwaits : s'.waits = s.waits := by
          rw [State.waits, hhandler, hfree, hmutex, Bool.or_false, State.waits]
        rw [hwaits, ← hsingle, hmutex]
        rfl
    | true =>
        have hwaits : s'.waits = false := by
          rw [State.waits, hfree, hmutex, Bool.or_true, Bool.not_true, Bool.and_false]
        rw [hmutex, if_pos rfl] at hsingle
        rw [hwaits, if_neg Bool.false_ne_true]
        split_ifs at hsingle with hold
        · omega
  · intro item' hitem hmutex
    rw [hhandler]
    exact h.owner item' (hmem item' hitem) hmutex
  · exact fun item' hitem ↦ h.plain item' (hmem item' hitem)
  · rw [hhandler]
    exact h.blocks

theorem afterProtect_ready {job job' : Job} {id : ℤ} {stage : Stage}
    (hnext : job.afterProtect id = .ready job' stage) : job'.request.blocks = true := by
  have hjob := afterProtect_job job id
  rw [hnext] at hjob
  obtain rfl := List.singleton_inj.mp hjob
  unfold Job.afterProtect at hnext
  split at hnext
  · next hrequest =>
      rw [hrequest]
      rfl
  · cases hnext

theorem step (h : Handshake s) (heffect : Effect collate s a s') : Handshake s' := by
  cases heffect with
  | issue => exact ⟨h.single, h.owner, h.plain, h.blocks⟩
  | take hidle hqueue =>
      apply h.of_not_waiting
      · rfl
      · rw [State.waits, hidle]
        rfl
      · exact start_isLocked _
      · intro job stage hstart hstage
        simp only [Job.start] at hstart
        split_ifs at hstart
        cases hstart
        exact absurd rfl hstage
  | enqueue hready =>
      exact h.enqueued hready (by simp [State.inFlight]) rfl rfl
  | @pass job stage next hlocked hfree hnext =>
      apply h.of_not_waiting
      · rfl
      · rw [State.waits, hfree, Bool.not_true, Bool.and_false]
      · exact afterMutex_isLocked hnext
      · intro job' stage' hready _
        have hjob := afterMutex_job hnext
        simp only at hready
        rw [hready] at hjob
        obtain rfl := List.singleton_inj.mp hjob
        exact h.blocks job' stage (Or.inl hlocked)
  | @passProtect job hprotect hfree =>
      apply h.of_not_waiting
      · rfl
      · rw [State.waits, hprotect]
        rfl
      · exact afterProtect_isLocked _ _
      · intro job' stage' hready _
        exact afterProtect_ready hready
  | respond hreturning =>
      apply h.of_not_waiting
      · rfl
      · rw [State.waits, hreturning]
        rfl
      · rfl
      · intro job stage hready
        cases hready
  | @dequeue item rest hidle hqueue =>
      have hflight : [item] ++ rest = s.inFlight := by
        simp [State.inFlight, hidle, hqueue, Worker.items]
      have hsingle := h.single
      have howner := h.owner
      have hplain := h.plain
      rw [← hflight] at hsingle howner hplain
      exact ⟨hsingle, howner, hplain, h.blocks⟩
  | @query item db result htook hrun =>
      have hflight : [item] ++ s.queryQ = s.inFlight := by
        simp [State.inFlight, htook, Worker.items]
      have hsingle := h.single
      have howner := h.owner
      have hplain := h.plain
      rw [← hflight] at hsingle howner hplain
      exact ⟨hsingle, howner, hplain, h.blocks⟩
  | @call item result hran =>
      obtain ⟨id, protectFree, resp, hcall⟩ := call_eq s item result
      rw [hcall]
      apply h.called item result
      · simp [State.inFlight, Worker.items, hran]
      · rfl
      · rfl
  | @unlock item hcalled =>
      apply h.unlocked item
      · simp [State.inFlight, Worker.items, hcalled]
      · rfl
      · rfl

end Handshake

/-! ## Stages -/

def Request.isSave : Request → Bool
  | .saveAccount _ | .savePc _ _ => true
  | _ => false

/-- The stages that the function of a request goes through. -/
def Stage.Fits (request : Request) : Stage → Prop
  | .row => True
  | .attribs _ => ∃ accountId id, request = .loadPc accountId id
  | .source _ _ _ => ∃ pc sources, request = .savePc pc sources

def Handler.Valid : Handler → Prop
  | .ready job stage | .locked job stage => stage.Fits job.request
  | .protect job => job.request.isSave = true
  | .idle | .returning _ _ => True

/-- The handler fits its request, and a result is one of its query. -/
structure Fitting (collate : Text → Text) (s : State) : Prop where
  handler : s.handler.Valid
  ran : ∀ item result, s.worker = .ran item result →
    ∃ db db', execute collate db item.query = some (db', result)

theorem nextSource_valid {job : Job} {pc : Pc} {sources : List (Text × Text)}
    (hrequest : job.request = .savePc pc sources) (id : ℤ) (left : List (Text × Text)) :
    (job.nextSource id left).Valid := by
  cases left with
  | nil => exact trivial
  | cons source left => exact ⟨pc, sources, hrequest⟩

theorem afterMutex_valid {job : Job} {resp : Option Result} {stage : Stage} {next : Handler}
    (hfits : stage.Fits job.request) (hnext : job.afterMutex resp stage = some next) :
    next.Valid := by
  cases stage with
  | row =>
      simp only [Job.afterMutex] at hnext
      split at hnext
      · next hrequest =>
          cases hnext
          simp only [Handler.Valid, hrequest, Request.isSave]
      · next hrequest =>
          cases hnext
          simp only [Handler.Valid, hrequest, Request.isSave]
      · next accountId id pc hrequest =>
          split_ifs at hnext
          cases hnext
          exact ⟨accountId, id, hrequest⟩
      · cases hnext
      · cases hnext
        exact trivial
  | attribs pc =>
      cases hnext
      exact trivial
  | source id source left =>
      cases hnext
      obtain ⟨pc, sources, hrequest⟩ := hfits
      exact nextSource_valid hrequest id left

theorem afterProtect_valid (job : Job) (id : ℤ) : (job.afterProtect id).Valid := by
  unfold Job.afterProtect
  split
  · next hrequest =>
      split_ifs
      · exact trivial
      · exact nextSource_valid hrequest id _
  · exact trivial

namespace Fitting

theorem initial (db : Database) : Fitting collate (.initial db) where
  handler := trivial
  ran _ _ hran := by cases hran

theorem step (h : Fitting collate s) (heffect : Effect collate s a s') : Fitting collate s' := by
  cases heffect with
  | issue => exact ⟨h.handler, h.ran⟩
  | take =>
      refine ⟨?_, h.ran⟩
      simp only [Job.start]
      split_ifs <;> exact trivial
  | @enqueue job stage hready =>
      have hfits : stage.Fits job.request := by simpa only [hready, Handler.Valid] using h.handler
      refine ⟨?_, h.ran⟩
      cases job.request.blocks with
      | true => exact hfits
      | false => exact trivial
  | @pass job stage next hlocked hfree hnext =>
      have hfits : stage.Fits job.request := by simpa only [hlocked, Handler.Valid] using h.handler
      exact ⟨afterMutex_valid hfits hnext, h.ran⟩
  | passProtect => exact ⟨afterProtect_valid _ _, h.ran⟩
  | respond => exact ⟨trivial, h.ran⟩
  | dequeue => exact ⟨h.handler, fun _ _ hran ↦ by cases hran⟩
  | query htook hrun =>
      refine ⟨h.handler, fun _ _ hran ↦ ?_⟩
      cases hran
      exact ⟨_, _, hrun⟩
  | @call item result hran =>
      obtain ⟨id, protectFree, resp, hcall⟩ := call_eq s item result
      rw [hcall]
      exact ⟨h.handler, fun _ _ hran ↦ by cases hran⟩
  | unlock => exact ⟨h.handler, fun _ _ hran ↦ by cases hran⟩

end Fitting

/-- A write gives no rows. -/
theorem result_of_isWrite {db db' : Database} {q : Query} (hwrite : q.isWrite = true)
    (h : execute collate db q = some (db', result)) : ∃ insertid, result = .done insertid := by
  cases q <;> simp only [Query.isWrite, Bool.false_eq_true] at hwrite <;>
    simp only [execute, Option.ite_none_left_eq_some, Option.ite_none_right_eq_some,
      Option.some.injEq, Prod.mk.injEq] at h
  all_goals first
    | exact ⟨_, h.2.symm⟩
    | exact ⟨_, h.2.2.symm⟩

/-- What travels without a mutex does not respond. -/
theorem call_resp (hfit : Fitting collate s) (hran : s.worker = .ran item result)
    (hplain : item.query.isPlain = true) : (s.call item result).resp = s.resp := by
  obtain ⟨db, db', hrun⟩ := hfit.ran item result hran
  unfold State.call
  cases hchain : item.query.chain result.count with
  | some query =>
      simp only
      split <;> rfl
  | none =>
      have hwrite : item.query.isWrite = true := by
        cases hquery : item.query <;> simp_all [Query.isPlain, Query.isWrite, Query.chain]
      obtain ⟨insertid, rfl⟩ := result_of_isWrite hwrite hrun
      simp only
      split <;> first | rfl | (split_ifs <;> rfl) | simp_all

end HavokMud.Mysql
