import HavokMud.Mysql.Handshake

/-!
# The calls on a setting

The calls that set a name travel in their order through both queues: the table holds the value of
the last one that was executed, and behind it come those that are to be written, to be looked for
and to be taken.
-/

namespace HavokMud.Mysql

/-! ## The calls on a name -/

section Names

variable (collate : Text → Text) (name : Text)

/-- The value that a call sets `name` to. -/
def SetCall.valueFor (call : SetCall) : Option Text :=
  if collate call.name = collate name then some call.value else none

def Request.valueFor : Request → Option Text
  | .setSetting n value => if collate n = collate name then some value else none
  | _ => none

/-- The value of the setting that a query looks for before it is written. -/
def Query.checksFor : Query → Option Text
  | .checkSetting n value => if collate n = collate name then some value else none
  | _ => none

/-- The value that a query writes. -/
def Query.writesFor : Query → Option Text
  | .updateSetting value n | .insertSetting n value =>
      if collate n = collate name then some value else none
  | _ => none

end Names

/-- The request that is not queued yet. -/
def Handler.unqueued : Handler → List Request
  | .ready job .row => [job.request]
  | _ => []

namespace State

variable (collate : Text → Text) (name : Text) (s : State)

/-- The values `name` was set to, in the order of the calls. -/
def setsOn : List Text :=
  s.sets.filterMap (SetCall.valueFor collate name)

def requestsOn : List Text :=
  (s.handler.unqueued ++ s.protobufQ.map Call.request).filterMap (Request.valueFor collate name)

def checksOn : List Text :=
  (s.worker.unchained ++ s.queryQ).filterMap fun item ↦ item.query.checksFor collate name

def writesOn : List Text :=
  (s.worker.unrun ++ s.queryQ).filterMap fun item ↦ item.query.writesFor collate name

end State

/-- The table holds `value` for `name`. -/
def Database.Holds (collate : Text → Text) (db : Database) (name value : Text) : Prop :=
  db.valuesOf collate name ≠ [] ∧ ∀ v ∈ db.valuesOf collate name, v = value

/-! ## Statements -/

variable {collate : Text → Text} {name value : Text} {db db' : Database} {q : Query}
  {result : Result}

theorem valuesOf_update : Database.valuesOf collate { db with
      settings := db.settings.map fun row ↦
        if collate row.1 = collate name then (row.1, value) else row } name =
    (db.valuesOf collate name).map fun _ ↦ value := by
  unfold Database.valuesOf
  induction db.settings with
  | nil => rfl
  | cons row rows ih =>
      by_cases hrow : collate row.1 = collate name
      · simp only [List.map_cons, hrow, if_true, List.filter_cons, decide_true]
        rw [ih]
      · simp only [List.map_cons, hrow, if_false, List.filter_cons, decide_false,
          Bool.false_eq_true]
        rw [ih]

theorem valuesOf_update_ne {n : Text} (hne : collate n ≠ collate name) :
    Database.valuesOf collate { db with
      settings := db.settings.map fun row ↦
        if collate row.1 = collate n then (row.1, value) else row } name =
    db.valuesOf collate name := by
  unfold Database.valuesOf
  induction db.settings with
  | nil => rfl
  | cons row rows ih =>
      by_cases hrow : collate row.1 = collate n
      · have hother : collate row.1 ≠ collate name := hrow ▸ hne
        simp only [List.map_cons, hrow, hne, if_true, List.filter_cons, decide_false,
          Bool.false_eq_true, if_false]
        rw [ih]
      · simp only [List.map_cons, hrow, if_false, List.filter_cons]
        split_ifs
        · rw [List.map_cons, List.map_cons, ih]
        · exact ih

theorem valuesOf_insert (n : Text) :
    Database.valuesOf collate { db with settings := db.settings ++ [(n, value)] } name =
      db.valuesOf collate name ++ if collate n = collate name then [value] else [] := by
  unfold Database.valuesOf
  by_cases hn : collate n = collate name
  · simp [hn]
  · simp [hn]

/-- A statement that does not write a name leaves it. -/
theorem valuesOf_of_writesFor_none (hwrites : q.writesFor collate name = none)
    (h : execute collate db q = some (db', result)) :
    db'.valuesOf collate name = db.valuesOf collate name := by
  cases q with
  | updateSetting v n =>
      have hne : collate n ≠ collate name := by simpa [Query.writesFor] using hwrites
      simp only [execute, Option.some.injEq, Prod.mk.injEq] at h
      rw [← h.1]
      exact valuesOf_update_ne hne
  | insertSetting n v =>
      have hne : collate n ≠ collate name := by simpa [Query.writesFor] using hwrites
      simp only [execute, Option.ite_none_right_eq_some, Option.some.injEq, Prod.mk.injEq] at h
      rw [← h.2.1, valuesOf_insert, if_neg hne, List.append_nil]
  | insertPcAttribs =>
      simp only [execute, Option.ite_none_left_eq_some, Option.some.injEq, Prod.mk.injEq] at h
      rw [← h.2.1]
      rfl
  | _ =>
      simp only [execute, Option.some.injEq, Prod.mk.injEq] at h
      obtain ⟨rfl, -⟩ := h
      rfl

/-- A write sets its name; an update needs a row for it. -/
theorem holds_of_writesFor (hwrites : q.writesFor collate name = some value)
    (hrow : ∀ v n, q = .updateSetting v n → db.valuesOf collate n ≠ [])
    (h : execute collate db q = some (db', result)) : db'.Holds collate name value := by
  cases q with
  | updateSetting v n =>
      obtain ⟨hn, rfl⟩ : collate n = collate name ∧ v = value := by
        simpa [Query.writesFor] using hwrites
      have hsome := hrow v n rfl
      have hvalues : db.valuesOf collate n = db.valuesOf collate name := by
        simp only [Database.valuesOf, hn]
      simp only [execute, Option.some.injEq, Prod.mk.injEq] at h
      have hset : db'.valuesOf collate name = (db.valuesOf collate name).map fun _ ↦ v := by
        rw [← h.1, hn]
        exact valuesOf_update
      constructor
      · rw [hset]
        simpa [hvalues] using hsome
      · rw [hset]
        simp
  | insertSetting n v =>
      obtain ⟨hn, rfl⟩ : collate n = collate name ∧ v = value := by
        simpa [Query.writesFor] using hwrites
      simp only [execute, Option.ite_none_right_eq_some, Option.some.injEq, Prod.mk.injEq] at h
      have hempty : db.valuesOf collate name = [] := by
        simpa only [Database.valuesOf, hn] using h.1
      have hset : db'.valuesOf collate name = [v] := by
        rw [← h.2.1, valuesOf_insert, if_pos hn, hempty]
        rfl
      constructor
      · rw [hset]
        simp
      · rw [hset]
        simp
  | _ => simp [Query.writesFor] at hwrites

/-- Settings are not deleted. -/
theorem valuesOf_ne_nil (hrow : db.valuesOf collate name ≠ [])
    (h : execute collate db q = some (db', result)) : db'.valuesOf collate name ≠ [] := by
  cases hwrites : q.writesFor collate name with
  | none =>
      rw [valuesOf_of_writesFor_none hwrites h]
      exact hrow
  | some value =>
      cases q with
      | updateSetting v n =>
          have hn : collate n = collate name := by
            by_contra hne
            simp [Query.writesFor, hne] at hwrites
          apply (holds_of_writesFor hwrites _ h).1
          rintro v n ⟨rfl, rfl⟩
          simpa only [Database.valuesOf, hn] using hrow
      | insertSetting n v => exact (holds_of_writesFor hwrites (by simp) h).1
      | _ => simp [Query.writesFor] at hwrites

/-! ## Callers -/

variable {s s' : State} {a : Action} {item : Item}

def Handler.call (h : Handler) : List Call :=
  h.job.map Job.toCall

/-- A caller that waits makes no further call. -/
structure Callers (s : State) : Prop where
  waiting : (s.handler.call ++ s.protobufQ).Pairwise fun x y ↦
    x.request.blocks = true → y.client ≠ x.client
  blocked : ∀ x ∈ s.handler.call ++ s.protobufQ, x.request.blocks = true →
    s.blocked x.client = true
  recorded : ∀ x ∈ s.protobufQ, ∀ n v, x.request = .setSetting n v → ⟨x.client, n, v⟩ ∈ s.sets

namespace Callers

theorem initial (db : Database) : Callers (.initial db) where
  waiting := List.Pairwise.nil
  blocked _ hx := absurd hx List.not_mem_nil
  recorded _ hx := absurd hx List.not_mem_nil

/-- A step that keeps the calls. -/
theorem of_calls_eq (h : Callers s) (hcall : s'.handler.call = s.handler.call)
    (hqueue : s'.protobufQ = s.protobufQ) (hblocked : s'.blocked = s.blocked)
    (hsets : s'.sets = s.sets) : Callers s' := by
  constructor
  · rw [hcall, hqueue]
    exact h.waiting
  · rw [hcall, hqueue, hblocked]
    exact h.blocked
  · rw [hqueue, hsets]
    exact h.recorded

theorem issued (h : Callers s) {client : ℕ} (request : Request)
    (hfree : s.blocked client = false) : Callers { s with
      protobufQ := s.protobufQ ++ [⟨client, request⟩]
      blocked := Function.update s.blocked client request.blocks
      sets := s.sets ++ request.setCall client } := by
  have hne (x : Call) (hx : x ∈ s.handler.call ++ s.protobufQ) (hblocks : x.request.blocks = true) :
      x.client ≠ client := by
    rintro rfl
    rw [h.blocked x hx hblocks] at hfree
    cases hfree
  constructor
  · rw [← List.append_assoc, List.pairwise_append]
    refine ⟨h.waiting, List.pairwise_singleton _ _, fun x hx y hy hblocks ↦ ?_⟩
    obtain rfl := List.mem_singleton.mp hy
    exact (hne x hx hblocks).symm
  · intro x hx hblocks
    rw [← List.append_assoc] at hx
    rcases List.mem_append.mp hx with hold | hnew
    · simp only [Function.update_of_ne (hne x hold hblocks)]
      exact h.blocked x hold hblocks
    · obtain rfl := List.mem_singleton.mp hnew
      simpa using hblocks
  · intro x hx n v hset
    rcases List.mem_append.mp hx with hold | hnew
    · exact List.mem_append_left _ (h.recorded x hold n v hset)
    · obtain rfl := List.mem_singleton.mp hnew
      apply List.mem_append_right
      simp only at hset
      rw [hset]
      exact List.mem_singleton_self _

theorem responded (h : Callers s) {job : Job} {response : Response} (saved : List Saved)
    (hreturning : s.handler = .returning job response) : Callers { s with
      handler := .idle
      blocked := if job.request.blocks then Function.update s.blocked job.client false
        else s.blocked
      saved := saved } := by
  have hwaiting := h.waiting
  have hblocked := h.blocked
  rw [hreturning] at hwaiting hblocked
  obtain ⟨hhead, htail⟩ := List.pairwise_cons.mp hwaiting
  constructor
  · exact htail
  · intro x hx hblocks
    have hold := hblocked x (List.mem_cons_of_mem _ hx) hblocks
    cases hjob : job.request.blocks with
    | false => exact hold
    | true =>
        have hne : x.client ≠ job.client := hhead x hx hjob
        simpa only [if_true, Function.update_of_ne hne] using hold
  · exact h.recorded

theorem step (h : Callers s) (heffect : Effect collate s a s') : Callers s' := by
  cases heffect with
  | issue request hfree => exact h.issued request hfree
  | @take call rest hidle hqueue =>
      have hcalls : (Job.start ⟨call, s.taken⟩).call ++ rest = s.handler.call ++ s.protobufQ := by
        rw [Handler.call, start_job, hidle, hqueue]
        rfl
      constructor
      · rw [hcalls]
        exact h.waiting
      · rw [hcalls]
        exact h.blocked
      · intro x hx
        apply h.recorded
        rw [hqueue]
        exact List.mem_cons_of_mem _ hx
  | @enqueue job stage hready =>
      apply h.of_calls_eq
      · rw [hready]
        cases job.request.blocks <;> rfl
      all_goals rfl
  | pass hlocked hfree hnext =>
      apply h.of_calls_eq
      · rw [hlocked]
        exact congrArg (List.map Job.toCall) (afterMutex_job hnext)
      all_goals rfl
  | passProtect hprotect hfree =>
      apply h.of_calls_eq
      · rw [hprotect]
        exact congrArg (List.map Job.toCall) (afterProtect_job _ _)
      all_goals rfl
  | respond hreturning => exact h.responded _ hreturning
  | dequeue => exact h.of_calls_eq rfl rfl rfl rfl
  | query => exact h.of_calls_eq rfl rfl rfl rfl
  | @call item result hran =>
      obtain ⟨id, protectFree, resp, hcall⟩ := call_eq s item result
      rw [hcall]
      exact h.of_calls_eq rfl rfl rfl rfl
  | unlock => exact h.of_calls_eq rfl rfl rfl rfl

end Callers

/-! ## The order of the calls -/

/-- The calls on a name are executed, written, checked and requested in their order, and the table
holds the value of the last one that was executed. -/
structure Ordered (collate : Text → Text) (s : State) (name : Text) : Prop where
  order : ∃ executed, s.setsOn collate name =
      executed ++ (s.writesOn collate name ++
        (s.checksOn collate name ++ s.requestsOn collate name)) ∧
    ∀ value, executed.getLast? = some value → s.db.Holds collate name value
  /-- An update waits for a row that is there. -/
  row : ∀ item ∈ s.worker.unrun ++ s.queryQ, ∀ v n, item.query = .updateSetting v n →
    s.db.valuesOf collate n ≠ []
  found : ∀ item result, s.worker = .ran item result → ∀ n v, item.query = .checkSetting n v →
    result.count ≠ 0 → s.db.valuesOf collate n ≠ []

namespace Ordered

theorem initial (db : Database) : Ordered collate (.initial db) name where
  order := ⟨[], rfl, fun value h ↦ by cases h⟩
  row _ hitem := absurd hitem List.not_mem_nil
  found _ _ hran := by cases hran

/-- A step that keeps the table and all the lists. -/
theorem of_eq (h : Ordered collate s name) (hdb : s'.db = s.db) (hsets : s'.sets = s.sets)
    (hrequests : s'.requestsOn collate name = s.requestsOn collate name)
    (hqueue : s'.worker.unrun ++ s'.queryQ = s.worker.unrun ++ s.queryQ)
    (hchecks : s'.checksOn collate name = s.checksOn collate name)
    (hran : ∀ item result, s'.worker = .ran item result → s.worker = .ran item result) :
    Ordered collate s' name := by
  constructor
  · have hwrites : s'.writesOn collate name = s.writesOn collate name := by
      simp only [State.writesOn, hqueue]
    simpa only [State.setsOn, hsets, hwrites, hchecks, hrequests, hdb] using h.order
  · rw [hqueue, hdb]
    exact h.row
  · intro item result hworker
    rw [hdb]
    exact h.found item result (hran item result hworker)

theorem valueFor_setCall (client : ℕ) (request : Request) :
    (request.setCall client).filterMap (SetCall.valueFor collate name) =
      (request.valueFor collate name).toList := by
  cases request with
  | setSetting n v =>
      simp only [Request.setCall, Request.valueFor, List.filterMap_cons, List.filterMap_nil,
        SetCall.valueFor]
      split_ifs <;> rfl
  | _ => rfl

theorem issued (h : Ordered collate s name) (call : Call) (hdb : s'.db = s.db)
    (hworker : s'.worker = s.worker) (hqueue : s'.queryQ = s.queryQ)
    (hhandler : s'.handler = s.handler) (hcalls : s'.protobufQ = s.protobufQ ++ [call])
    (hsets : s'.sets = s.sets ++ call.request.setCall call.client) : Ordered collate s' name := by
  obtain ⟨executed, horder, hheld⟩ := h.order
  constructor
  · refine ⟨executed, ?_, by rwa [hdb]⟩
    have hwrites : s'.writesOn collate name = s.writesOn collate name := by
      rw [State.writesOn, hworker, hqueue, State.writesOn]
    have hchecks : s'.checksOn collate name = s.checksOn collate name := by
      rw [State.checksOn, hworker, hqueue, State.checksOn]
    have hrequests : s'.requestsOn collate name =
        s.requestsOn collate name ++ (call.request.valueFor collate name).toList := by
      rw [State.requestsOn, hhandler, hcalls, List.map_append, ← List.append_assoc,
        List.filterMap_append, State.requestsOn]
      cases hvalue : call.request.valueFor collate name <;> simp [hvalue]
    calc s'.setsOn collate name
      _ = s.setsOn collate name ++ (call.request.valueFor collate name).toList := by
        rw [State.setsOn, hsets, List.filterMap_append, valueFor_setCall, State.setsOn]
      _ = executed ++ (s.writesOn collate name ++ (s.checksOn collate name ++
          (s.requestsOn collate name ++ (call.request.valueFor collate name).toList))) := by
        rw [horder]
        simp only [List.append_assoc]
      _ = _ := by rw [hwrites, hchecks, hrequests]
  · rw [hworker, hqueue, hdb]
    exact h.row
  · rw [hworker, hdb]
    exact h.found

theorem requests_start (call : Call) (number : ℕ) (rest : List Call) :
    ((Job.start ⟨call, number⟩).unqueued ++ rest.map Call.request).filterMap
        (Request.valueFor collate name) =
      ((call :: rest).map Call.request).filterMap (Request.valueFor collate name) := by
  cases hrefused : call.request.refused with
  | true =>
      have hnone : call.request.valueFor collate name = none := by
        cases hrequest : call.request <;> simp_all [Request.valueFor, Request.refused]
      simp [Job.start, hrefused, Handler.unqueued, hnone]
  | false => simp [Job.start, hrefused, Handler.unqueued]

/-- A request is queued as a check. -/
theorem checksFor_query (job : Job) (stage : Stage) :
    ((job.query stage).checksFor collate name).toList =
      (Handler.ready job stage).unqueued.filterMap (Request.valueFor collate name) := by
  cases stage with
  | row =>
      unfold Job.query Request.query
      cases hrequest : job.request with
      | setSetting n v =>
          by_cases hn : collate n = collate name <;>
            simp [Handler.unqueued, hrequest, Query.checksFor, Request.valueFor, hn]
      | _ => simp [Handler.unqueued, hrequest, Query.checksFor, Request.valueFor]
  | attribs => rfl
  | source => rfl

theorem writesFor_query (job : Job) (stage : Stage) :
    (job.query stage).writesFor collate name = none := by
  cases stage with
  | row =>
      unfold Job.query Request.query
      cases job.request <;> rfl
  | attribs => rfl
  | source => rfl

theorem query_ne_update (job : Job) (stage : Stage) (v n : Text) :
    job.query stage ≠ .updateSetting v n := by
  cases stage with
  | row =>
      unfold Job.query Request.query
      cases job.request <;> simp
  | attribs => simp [Job.query]
  | source => simp [Job.query]

theorem enqueued (h : Ordered collate s name) {job : Job} {stage : Stage}
    (hready : s.handler = .ready job stage) (hdb : s'.db = s.db) (hsets : s'.sets = s.sets)
    (hworker : s'.worker = s.worker) (hcalls : s'.protobufQ = s.protobufQ) {mutex : Bool}
    {saved : List Saved}
    (hqueue : s'.queryQ = s.queryQ ++ [⟨job.query stage, job.number, mutex, saved⟩])
    (hhandler : s'.handler.unqueued = []) : Ordered collate s' name := by
  obtain ⟨executed, horder, hheld⟩ := h.order
  constructor
  · refine ⟨executed, ?_, by rwa [hdb]⟩
    have hwrites : s'.writesOn collate name = s.writesOn collate name := by
      simp [State.writesOn, hworker, hqueue, writesFor_query]
    have hchecks : s'.checksOn collate name = s.checksOn collate name ++
        (Handler.ready job stage).unqueued.filterMap (Request.valueFor collate name) := by
      rw [State.checksOn, hworker, hqueue, ← List.append_assoc, List.filterMap_append,
        ← checksFor_query, State.checksOn]
      cases hcheck : (job.query stage).checksFor collate name <;> simp [hcheck]
    have hrequests : s.requestsOn collate name =
        (Handler.ready job stage).unqueued.filterMap (Request.valueFor collate name) ++
          s'.requestsOn collate name := by
      simp [State.requestsOn, hready, hhandler, hcalls]
    rw [State.setsOn, hsets, hwrites, hchecks, List.append_assoc, ← hrequests]
    exact horder
  · intro item hitem v n hupdate
    rw [hworker, hqueue, ← List.append_assoc] at hitem
    rw [hdb]
    rcases List.mem_append.mp hitem with hold | hnew
    · exact h.row item hold v n hupdate
    · obtain rfl := List.mem_singleton.mp hnew
      exact absurd hupdate (query_ne_update job stage v n)
  · rw [hworker, hdb]
    exact h.found

/-- A statement is executed. -/
theorem executed (h : Ordered collate s name) {db : Database} (htook : s.worker = .took item)
    (hrun : execute collate s.db item.query = some (db, result)) (hdb : s'.db = db)
    (hworker : s'.worker = .ran item result) (hqueue : s'.queryQ = s.queryQ)
    (hsets : s'.sets = s.sets)
    (hrequests : s'.requestsOn collate name = s.requestsOn collate name) :
    Ordered collate s' name := by
  obtain ⟨executed, horder, hheld⟩ := h.order
  have hmem : item ∈ s.worker.unrun ++ s.queryQ := by
    rw [htook]
    exact List.mem_cons_self
  have hchecks : s'.checksOn collate name = s.checksOn collate name := by
    rw [State.checksOn, hworker, hqueue, State.checksOn, htook]
    rfl
  have hwrites : s.writesOn collate name =
      (item.query.writesFor collate name).toList ++ s'.writesOn collate name := by
    rw [State.writesOn, State.writesOn, htook, hworker, hqueue]
    cases hvalue : item.query.writesFor collate name <;> simp [Worker.unrun, hvalue]
  constructor
  · refine ⟨executed ++ (item.query.writesFor collate name).toList, ?_, ?_⟩
    · rw [State.setsOn, hsets, hchecks, hrequests, List.append_assoc, ← List.append_assoc _
        (s'.writesOn collate name), ← hwrites]
      exact horder
    · intro value hlast
      rw [hdb]
      cases hvalue : item.query.writesFor collate name with
      | none =>
          rw [hvalue, Option.toList_none, List.append_nil] at hlast
          have hheld := hheld value hlast
          rwa [Database.Holds, valuesOf_of_writesFor_none hvalue hrun]
      | some v =>
          obtain rfl : v = value := by simpa [hvalue] using hlast
          exact holds_of_writesFor hvalue (h.row item hmem) hrun
  · intro item' hitem v n hupdate
    rw [hdb]
    apply valuesOf_ne_nil _ hrun
    apply h.row item' _ v n hupdate
    rw [hworker, hqueue] at hitem
    exact List.mem_append_right _ hitem
  · intro item' result' hran n v hcheck hcount
    rw [hworker] at hran
    cases hran
    rw [hdb]
    rw [hcheck] at hrun
    simp only [execute, Option.some.injEq, Prod.mk.injEq] at hrun
    obtain ⟨rfl, rfl⟩ := hrun
    intro hnil
    rw [hnil] at hcount
    exact hcount rfl

/-- What a chain function queues for a name is what was checked. -/
theorem writesFor_chained :
    (item.chained result).filterMap (fun i ↦ i.query.writesFor collate name) =
    (item.query.checksFor collate name).toList := by
  unfold Item.chained
  cases hquery : item.query with
  | checkSetting n v =>
      by_cases hn : collate n = collate name <;> by_cases hcount : result.count = 0 <;>
        simp [Query.chain, Query.writesFor, Query.checksFor, hn, hcount]
  | checkAccount account =>
      by_cases hcount : result.count = 0 <;>
        simp [Query.chain, Query.writesFor, Query.checksFor, hcount]
  | checkPc pc =>
      by_cases hcount : result.count = 0 <;>
        simp [Query.chain, Query.writesFor, Query.checksFor, hcount]
  | checkPcAttribs attribs =>
      by_cases hcount : result.count = 0 <;>
        simp [Query.chain, Query.writesFor, Query.checksFor, hcount]
  | _ => rfl

theorem checksFor_chained :
    (item.chained result).filterMap (fun i ↦ i.query.checksFor collate name) = [] := by
  apply List.filterMap_eq_nil_iff.mpr
  intro i hi
  have hwrite := (mem_chained hi).2.1
  cases hquery : i.query <;> simp_all [Query.isWrite, Query.checksFor]

/-- A chain function runs. -/
theorem called (h : Ordered collate s name) (hran : s.worker = .ran item result)
    (hdb : s'.db = s.db) (hworker : s'.worker = .called item)
    (hqueue : s'.queryQ = s.queryQ ++ item.chained result) (hsets : s'.sets = s.sets)
    (hrequests : s'.requestsOn collate name = s.requestsOn collate name) :
    Ordered collate s' name := by
  obtain ⟨executed, horder, hheld⟩ := h.order
  have hchecks : s.checksOn collate name =
      (item.query.checksFor collate name).toList ++ s'.checksOn collate name := by
    have hnew : s'.checksOn collate name =
        s.queryQ.filterMap fun i ↦ i.query.checksFor collate name := by
      rw [State.checksOn, hworker, hqueue]
      simp [Worker.unchained, checksFor_chained]
    rw [hnew, State.checksOn, hran]
    cases hvalue : item.query.checksFor collate name <;> simp [Worker.unchained, hvalue]
  have hwrites : s'.writesOn collate name =
      s.writesOn collate name ++ (item.query.checksFor collate name).toList := by
    rw [State.writesOn, hworker, hqueue, ← List.append_assoc, List.filterMap_append,
      writesFor_chained, State.writesOn, hran]
    rfl
  constructor
  · refine ⟨executed, ?_, by rwa [hdb]⟩
    rw [State.setsOn, hsets, hwrites, hrequests, List.append_assoc, ← List.append_assoc _
      (s'.checksOn collate name), ← hchecks]
    exact horder
  · intro item' hitem v n hupdate
    rw [hworker, hqueue] at hitem
    rw [hdb]
    rcases List.mem_append.mp hitem with hold | hnew
    · exact absurd hold List.not_mem_nil
    rcases List.mem_append.mp hnew with hold | hnew
    · exact h.row item' (List.mem_append_right _ hold) v n hupdate
    · have hchain := (mem_chained hnew).2.2.2.2
      cases hquery : item.query with
      | checkSetting n' v' =>
          rw [hquery, hupdate, Query.chain] at hchain
          split_ifs at hchain with hcount
          · cases hchain
            exact h.found item result hran n v hquery hcount
          · cases hchain
      | _ =>
          rw [hquery, hupdate] at hchain
          simp only [Query.chain] at hchain
          first | cases hchain | (split_ifs at hchain <;> cases hchain)
  · rw [hworker]
    intro _ _ hran
    cases hran

theorem unqueued_afterMutex {job : Job} {resp : Option Result} {stage : Stage} {next : Handler}
    (hnext : job.afterMutex resp stage = some next) : next.unqueued = [] := by
  cases stage with
  | row =>
      simp only [Job.afterMutex] at hnext
      split at hnext <;> try split_ifs at hnext
      all_goals first | cases hnext; rfl | cases hnext
  | attribs pc =>
      cases hnext
      rfl
  | source id source left =>
      cases hnext
      cases left <;> rfl

theorem unqueued_afterProtect (job : Job) (id : ℤ) : (job.afterProtect id).unqueued = [] := by
  unfold Job.afterProtect
  split
  · next sources _ =>
      split_ifs
      · rfl
      · cases sources <;> rfl
  · rfl

theorem step (h : Ordered collate s name) (heffect : Effect collate s a s') :
    Ordered collate s' name := by
  cases heffect with
  | @issue client request hfree => exact h.issued ⟨client, request⟩ rfl rfl rfl rfl rfl rfl
  | @take call rest hidle hqueue =>
      apply h.of_eq
      case hrequests =>
        simp only [State.requestsOn, requests_start, hidle, hqueue]
        rfl
      all_goals first | rfl | exact fun _ _ hran ↦ hran
  | @enqueue job stage hready =>
      apply h.enqueued hready
      case hhandler => cases job.request.blocks <;> rfl
      all_goals rfl
  | pass hlocked hfree hnext =>
      apply h.of_eq
      case hrequests =>
        simp only [State.requestsOn, unqueued_afterMutex hnext, hlocked]
        rfl
      all_goals first | rfl | exact fun _ _ hran ↦ hran
  | passProtect hprotect hfree =>
      apply h.of_eq
      case hrequests =>
        simp only [State.requestsOn, unqueued_afterProtect, hprotect]
        rfl
      all_goals first | rfl | exact fun _ _ hran ↦ hran
  | respond hreturning =>
      apply h.of_eq
      case hrequests =>
        simp only [State.requestsOn, hreturning]
        rfl
      all_goals first | rfl | exact fun _ _ hran ↦ hran
  | @dequeue item rest hidle hqueue =>
      apply h.of_eq
      case hqueue =>
        rw [hidle, hqueue]
        rfl
      case hchecks =>
        simp only [State.checksOn, hidle, hqueue]
        rfl
      case hran =>
        intro _ _ hran
        cases hran
      all_goals rfl
  | query htook hrun => exact h.executed htook hrun rfl rfl rfl rfl rfl
  | @call item result hran =>
      obtain ⟨id, protectFree, resp, hcall⟩ := call_eq s item result
      rw [hcall]
      exact h.called hran rfl rfl rfl rfl rfl
  | @unlock item hcalled =>
      apply h.of_eq
      case hqueue =>
        rw [hcalled]
        rfl
      case hchecks =>
        simp only [State.checksOn, hcalled]
        rfl
      case hran =>
        intro _ _ hran
        cases hran
      all_goals rfl

end Ordered

end HavokMud.Mysql
