import HavokMud.Mysql.Calls

/-!
# Reading settings back

`pb_set_setting` does not wait.  Its `SELECT` goes on `QueryQ` at once, but the `UPDATE` or `INSERT`
only when `MysqlThread` has executed the `SELECT`, and a `pb_get_setting` may be queued between the
two.  The calls on a name travel in their order through both queues, so a read is right when it is
queued behind the writes.
-/

namespace HavokMud.Mysql

variable {collate : Text → Text} {name : Text} {s s' : State} {a : Action} {item : Item}

/-! ## Reads -/

/-- Only `client` has set `name`. -/
def SoleWriter (collate : Text → Text) (s : State) (name : Text) (client : ℕ) : Prop :=
  ∀ call ∈ s.sets, collate call.name = collate name → call.client = client

/-- The rows hold what `name` was set to last. -/
def Answers (collate : Text → Text) (s : State) (name : Text) (values : List Text) : Prop :=
  ∀ value, (s.setsOn collate name).getLast? = some value → values = [value]

/-- The name whose `SELECT` is about to be queued for a read. -/
def Handler.readName : Handler → List Text
  | .ready job _ =>
      match job.request with
      | .getSetting name => [name]
      | _ => []
  | _ => []

/-- When the `SELECT` of a read is queued, no call on the name is still to be chained. -/
def SettledRead (collate : Text → Text) (s : State) (a : Action) : Prop :=
  a = .enqueue → ∀ name ∈ s.handler.readName, s.checksOn collate name = []

instance SettledRead.decidable (collate : Text → Text) (s : State) (a : Action) :
    Decidable (SettledRead collate s a) :=
  inferInstanceAs (Decidable (_ → _))

/-- The way of a read: it is queued behind the writes, executed, and answered. -/
inductive Reading (collate : Text → Text) (s : State) (name : Text) : Prop
  | queued {before after : List Item} {item : Item}
      (hqueue : s.worker.unrun ++ s.queryQ = before ++ item :: after)
      (hquery : item.query = .getSetting name) (hmutex : item.mutex = true)
      (hwrites : (after.filterMap fun i ↦ i.query.writesFor collate name) = [])
  | ran {item : Item} {values : List Text} (hran : s.worker = .ran item (.settings values))
      (hquery : item.query = .getSetting name) (hmutex : item.mutex = true)
      (hanswers : Answers collate s name values)
  | answered {values : List Text} (hresp : s.resp = some (.settings values))
      (hanswers : Answers collate s name values)
      (hfree : s.mutexFree = true ∨ ∃ item, s.worker = .called item ∧ item.mutex = true)

/-- Every read of a name that only its caller has set is on its way to the right answer. -/
structure Reads (collate : Text → Text) (s : State) : Prop where
  locked : ∀ job stage name, s.handler = .locked job stage → job.request = .getSetting name →
    SoleWriter collate s name job.client → s.checksOn collate name = [] ∧ Reading collate s name
  returning : ∀ job response name, s.handler = .returning job response →
    job.request = .getSetting name → SoleWriter collate s name job.client →
      ∃ values, response = .rows (some (.settings values)) ∧ Answers collate s name values

namespace Reads

theorem initial (db : Database) : Reads collate (.initial db) where
  locked _ _ _ hlocked := by cases hlocked
  returning _ _ _ hreturning := by cases hreturning

/-- A handler that neither waits nor returns has nothing to show. -/
theorem of_handler (hlocked : s.handler.isLocked = false)
    (hreturning : ∀ job response, s.handler ≠ .returning job response) : Reads collate s where
  locked job stage name h := by
    rw [h] at hlocked
    cases hlocked
  returning job response name h := absurd h (hreturning job response)

/-- While a read is handled no other call on its name is requested. -/
theorem requestsOn_eq_nil (hcallers : Callers s) {job : Job} {stage : Stage}
    (hlocked : s.handler = .locked job stage) (hblocks : job.request.blocks = true)
    (hsole : SoleWriter collate s name job.client) : s.requestsOn collate name = [] := by
  have hwaiting := hcallers.waiting
  rw [hlocked] at hwaiting
  obtain ⟨hhead, -⟩ := List.pairwise_cons.mp hwaiting
  apply List.filterMap_eq_nil_iff.mpr
  intro request hrequest
  rw [hlocked] at hrequest
  obtain ⟨x, hx, rfl⟩ := List.mem_map.mp hrequest
  cases hset : x.request with
  | setSetting n v =>
      have hne : x.client ≠ job.client := hhead x hx hblocks
      have hn : collate n ≠ collate name := fun hn ↦
        hne (hsole _ (hcallers.recorded x hx n v hset) hn)
      simp [Request.valueFor, hn]
  | _ => rfl

/-- A caller that waits does not set the name it alone has set. -/
theorem setsOn_issued (hcallers : Callers s) {job : Job} (hcall : s.handler.call = [job.toCall])
    (hblocks : job.request.blocks = true) {client : ℕ} (request : Request)
    (hfree : s.blocked client = false) (hsets : s'.sets = s.sets ++ request.setCall client)
    (hsole : SoleWriter collate s' name job.client) :
    s'.setsOn collate name = s.setsOn collate name ∧ SoleWriter collate s name job.client := by
  have hblocked : s.blocked job.client = true := by
    apply hcallers.blocked job.toCall _ hblocks
    rw [hcall]
    exact List.mem_cons_self
  constructor
  · rw [State.setsOn, hsets, List.filterMap_append, Ordered.valueFor_setCall, State.setsOn]
    cases hset : request with
    | setSetting n v =>
        have hn : collate n ≠ collate name := by
          intro hn
          have hmem : (⟨client, n, v⟩ : SetCall) ∈ s'.sets := by
            rw [hsets, hset]
            exact List.mem_append_right _ (List.mem_singleton_self _)
          obtain rfl : client = job.client := hsole _ hmem hn
          rw [hblocked] at hfree
          cases hfree
        simp [Request.valueFor, hn]
    | _ => exact List.append_nil _
  · intro call hmem
    apply hsole
    rw [hsets]
    exact List.mem_append_left _ hmem

theorem reading_congr (h : Reading collate s name) (hworker : s'.worker = s.worker)
    (hqueue : s'.queryQ = s.queryQ) (hresp : s'.resp = s.resp) (hfree : s'.mutexFree = s.mutexFree)
    (hsets : s'.setsOn collate name = s.setsOn collate name) : Reading collate s' name := by
  have hanswers (values : List Text) (h : Answers collate s name values) :
      Answers collate s' name values := by rwa [Answers, hsets]
  cases h with
  | queued h hquery hmutex hwrites =>
      exact .queued (by rw [hworker, hqueue, h]) hquery hmutex hwrites
  | ran hran hquery hmutex h => exact .ran (hworker.trans hran) hquery hmutex (hanswers _ h)
  | answered h hans hor =>
      exact .answered (hresp.trans h) (hanswers _ hans) (by rwa [hworker, hfree])

theorem issued (h : Reads collate s) (hcallers : Callers s) {client : ℕ} (request : Request)
    (hfree : s.blocked client = false) (hsets : s'.sets = s.sets ++ request.setCall client)
    (hhandler : s'.handler = s.handler) (hworker : s'.worker = s.worker)
    (hqueue : s'.queryQ = s.queryQ) (hresp : s'.resp = s.resp)
    (hmutex : s'.mutexFree = s.mutexFree) : Reads collate s' := by
  constructor
  · intro job stage name hlocked hget hsole
    rw [hhandler] at hlocked
    obtain ⟨hon, hsole'⟩ :=
        setsOn_issued hcallers (by rw [hlocked]; rfl) (by rw [hget]; rfl) request
      hfree hsets hsole
    obtain ⟨hchecks, hreading⟩ := h.locked job stage name hlocked hget hsole'
    constructor
    · rw [State.checksOn, hworker, hqueue]
      exact hchecks
    · exact reading_congr hreading hworker hqueue hresp hmutex hon
  · intro job response name hreturning hget hsole
    rw [hhandler] at hreturning
    obtain ⟨hon, hsole'⟩ := setsOn_issued hcallers (by rw [hreturning]; rfl) (by rw [hget]; rfl)
      request hfree hsets hsole
    obtain ⟨values, hvalues, hanswers⟩ := h.returning job response name hreturning hget hsole'
    exact ⟨values, hvalues, by rwa [Answers, hon]⟩

theorem enqueued (hfitting : Fitting collate s) {job : Job} {stage : Stage}
    (hready : s.handler = .ready job stage)
    (hsettled : ∀ name, job.request = .getSetting name → s.checksOn collate name = [])
    (hworker : s'.worker = s.worker) {saved : List Saved} (hqueue : s'.queryQ =
      s.queryQ ++ [⟨job.query stage, job.number, job.request.blocks, saved⟩])
    (hhandler : s'.handler =
      if job.request.blocks then .locked job stage else .returning job .null) :
    Reads collate s' := by
  constructor
  · intro job' stage' name hlocked hget hsole
    rw [hhandler] at hlocked
    split_ifs at hlocked with hblocks
    cases hlocked
    have hfits : stage.Fits (.getSetting name) := by
      simpa only [hready, Handler.Valid, hget] using hfitting.handler
    have hquery : job.query stage = .getSetting name := by
      cases stage with
      | row => simp only [Job.query, hget, Request.query]
      | attribs pc =>
          obtain ⟨_, _, h⟩ := hfits
          cases h
      | source id source left =>
          obtain ⟨_, _, h⟩ := hfits
          cases h
    constructor
    · have hold := hsettled name hget
      rw [State.checksOn] at hold
      rw [State.checksOn, hworker, hqueue, ← List.append_assoc, List.filterMap_append, hquery, hold]
      rfl
    · have hlast : s'.worker.unrun ++ s'.queryQ = (s.worker.unrun ++ s.queryQ) ++
          [⟨job.query stage, job.number, job.request.blocks, saved⟩] := by
        rw [hworker, hqueue, List.append_assoc]
      exact .queued hlast hquery hblocks rfl
  · intro job' response name hreturning hget hsole
    rw [hhandler] at hreturning
    split_ifs at hreturning with hblocks
    cases hreturning
    rw [hget] at hblocks
    exact absurd rfl hblocks

/-- A query that still has its mutex has not been unlocked. -/
theorem answered_of_free (hshake : Handshake s) (hfree : s.mutexFree = true)
    (h : Reading collate s name) :
    ∃ values, s.resp = some (.settings values) ∧ Answers collate s name values := by
  have hwaits : s.waits = false := by rw [State.waits, hfree, Bool.not_true, Bool.and_false]
  cases h with
  | @queued before after item hqueue hquery hmutex hwrites =>
      have hmem : item ∈ s.inFlight := by
        have hitem : item ∈ s.worker.unrun ++ s.queryQ := by simp [hqueue]
        rcases List.mem_append.mp hitem with hold | hold
        · apply List.mem_append_left
          cases hworker : s.worker <;> rw [hworker] at hold <;> first | exact hold | cases hold
        · exact List.mem_append_right _ hold
      rw [hshake.no_mutex hwaits hmem] at hmutex
      cases hmutex
  | @ran item values hran hquery hmutex hanswers =>
      have hmem : item ∈ s.inFlight := by simp [State.inFlight, hran, Worker.items]
      rw [hshake.no_mutex hwaits hmem] at hmutex
      cases hmutex
  | answered hresp hanswers hor => exact ⟨_, hresp, hanswers⟩

theorem passed (h : Reads collate s) (hshake : Handshake s) (hfitting : Fitting collate s)
    {job : Job} {stage : Stage} {next : Handler} (hlocked : s.handler = .locked job stage)
    (hfree : s.mutexFree = true) (hnext : job.afterMutex s.resp stage = some next) :
    Reads collate { s with handler := next } := by
  constructor
  · intro job' stage' name hlocked'
    have hnot := afterMutex_isLocked hnext
    simp only at hlocked'
    rw [hlocked'] at hnot
    cases hnot
  · intro job' response name hreturning hget hsole
    simp only at hreturning
    subst hreturning
    obtain rfl : job' = job := List.singleton_inj.mp (afterMutex_job hnext)
    have hfits : stage.Fits (.getSetting name) := by
      simpa only [hlocked, Handler.Valid, hget] using hfitting.handler
    obtain ⟨-, hreading⟩ := h.locked job' stage name hlocked hget hsole
    obtain ⟨values, hresp, hanswers⟩ := answered_of_free hshake hfree hreading
    refine ⟨values, ?_, hanswers⟩
    cases stage with
    | row =>
        simp only [Job.afterMutex, hget, hresp, Option.some.injEq] at hnext
        cases hnext
        rfl
    | attribs pc =>
        obtain ⟨_, _, h⟩ := hfits
        cases h
    | source id source left =>
        obtain ⟨_, _, h⟩ := hfits
        cases h

theorem passedProtect (hfitting : Fitting collate s) {job : Job}
    (hprotect : s.handler = .protect job) :
    Reads collate { s with handler := job.afterProtect s.id } := by
  constructor
  · intro job' stage' name hlocked
    have hnot := afterProtect_isLocked job s.id
    simp only at hlocked
    rw [hlocked] at hnot
    cases hnot
  · intro job' response name hreturning hget hsole
    have hjob := afterProtect_job job s.id
    simp only at hreturning
    rw [hreturning] at hjob
    obtain rfl : job' = job := List.singleton_inj.mp hjob
    have hsave := hfitting.handler
    rw [hprotect, Handler.Valid, hget] at hsave
    cases hsave

/-- A step of `MysqlThread` leaves the handler. -/
theorem of_reading (h : Reads collate s) (hhandler : s'.handler = s.handler)
    (hsets : s'.sets = s.sets)
    (hreading : ∀ job stage name, s.handler = .locked job stage → job.request = .getSetting name →
      SoleWriter collate s name job.client → s.checksOn collate name = [] → Reading collate s name →
        s'.checksOn collate name = [] ∧ Reading collate s' name) : Reads collate s' := by
  have hsole (name : Text) (client : ℕ) (h : SoleWriter collate s' name client) :
      SoleWriter collate s name client := by rwa [SoleWriter, ← hsets]
  constructor
  · intro job stage name hlocked hget hsole'
    rw [hhandler] at hlocked
    obtain ⟨hchecks, hr⟩ := h.locked job stage name hlocked hget (hsole _ _ hsole')
    exact hreading job stage name hlocked hget (hsole _ _ hsole') hchecks hr
  · intro job response name hreturning hget hsole'
    rw [hhandler] at hreturning
    obtain ⟨values, hvalues, hanswers⟩ :=
      h.returning job response name hreturning hget (hsole _ _ hsole')
    refine ⟨values, hvalues, ?_⟩
    rwa [Answers, State.setsOn, hsets]

/-- The read itself is executed: everything set before is in the table. -/
theorem answers_of_executed (hordered : Ordered collate s name)
    (hwrites : s.writesOn collate name = []) (hchecks : s.checksOn collate name = [])
    (hrequests : s.requestsOn collate name = []) :
    Answers collate s name ((s.db.valuesOf collate name).take 1) := by
  obtain ⟨executed, horder, hheld⟩ := hordered.order
  rw [hwrites, hchecks, hrequests, List.append_nil, List.append_nil, List.append_nil] at horder
  intro value hlast
  rw [horder] at hlast
  obtain ⟨hne, hall⟩ := hheld value hlast
  cases hvalues : s.db.valuesOf collate name with
  | nil => exact absurd hvalues hne
  | cons v rest =>
      obtain rfl : v = value := hall v (by rw [hvalues]; exact List.mem_cons_self)
      rfl

theorem dequeued (h : Reads collate s) {rest : List Item} (hidle : s.worker = .idle)
    (hqueue : s.queryQ = item :: rest) :
    Reads collate { s with queryQ := rest, worker := .took item } := by
  apply h.of_reading
  · rfl
  · rfl
  intro job stage name _ _ _ hchecks hreading
  constructor
  · rw [State.checksOn, hidle, hqueue] at hchecks
    exact hchecks
  · cases hreading with
    | queued h hquery hmutex hwrites =>
        rw [hidle, hqueue] at h
        exact .queued h hquery hmutex hwrites
    | ran hran => cases hidle.symm.trans hran
    | answered hresp hanswers hor =>
        refine .answered hresp hanswers (Or.inl ?_)
        rcases hor with hfree | ⟨_, hcalled, -⟩
        · exact hfree
        · cases hidle.symm.trans hcalled

theorem executed (h : Reads collate s) (hcallers : Callers s)
    (hordered : ∀ name, Ordered collate s name) {db : Database} (htook : s.worker = .took item)
    (hrun : execute collate s.db item.query = some (db, result)) (log : List (Item × Result)) :
    Reads collate { s with db := db, worker := .ran item result, log := log } := by
  apply h.of_reading
  · rfl
  · rfl
  intro job stage name hlocked hget hsole hchecks hreading
  have hsame : s.worker.unchained = (Worker.ran item result).unchained := by
    rw [htook]
    rfl
  refine ⟨by rwa [State.checksOn, hsame] at hchecks, ?_⟩
  cases hreading with
  | @queued before after item' hqueue hquery hmutex hwrites =>
      rw [htook] at hqueue
      cases before with
      | nil =>
          -- the read reaches the server, and every write on the name was before it
          obtain ⟨rfl, rfl⟩ := List.cons.inj hqueue
          have hnone : s.writesOn collate name = [] := by
            rw [State.writesOn, htook]
            simpa [Worker.unrun, hquery, Query.writesFor] using hwrites
          have hrequests := requestsOn_eq_nil hcallers hlocked (by rw [hget]; rfl) hsole
          have hanswers := answers_of_executed (hordered name) hnone hchecks hrequests
          rw [hquery] at hrun
          simp only [execute, Option.some.injEq, Prod.mk.injEq] at hrun
          obtain ⟨rfl, rfl⟩ := hrun
          exact .ran rfl hquery hmutex hanswers
      | cons first before =>
          obtain ⟨rfl, hrest⟩ := List.cons.inj hqueue
          exact .queued hrest hquery hmutex hwrites
  | ran hran => cases htook.symm.trans hran
  | answered hresp hanswers hor =>
      refine .answered hresp hanswers (Or.inl ?_)
      rcases hor with hfree | ⟨_, hcalled, -⟩
      · exact hfree
      · cases htook.symm.trans hcalled

theorem called (h : Reads collate s) (hshake : Handshake s) (hfitting : Fitting collate s)
    (hran : s.worker = .ran item result) :
    Reads collate { s.call item result with worker := .called item } := by
  obtain ⟨id, protectFree, resp, hcall⟩ := call_eq s item result
  have hresp : resp = (s.call item result).resp := by rw [hcall]
  rw [hcall]
  apply h.of_reading
  · rfl
  · rfl
  intro job stage name hlocked hget hsole hchecks hreading
  have hcheck : item.query.checksFor collate name = none := by
    rw [State.checksOn, hran] at hchecks
    exact (List.filterMap_eq_nil_iff.mp hchecks) item List.mem_cons_self
  have hqueue : (s.queryQ.filterMap fun i ↦ i.query.checksFor collate name) = [] := by
    apply List.filterMap_eq_nil_iff.mpr
    intro i hi
    rw [State.checksOn] at hchecks
    exact (List.filterMap_eq_nil_iff.mp hchecks) i (List.mem_append_right _ hi)
  refine ⟨by simp [State.checksOn, Worker.unchained, hqueue, Ordered.checksFor_chained], ?_⟩
  cases hreading with
  | @queued before after item' h hquery hmutex hwrites =>
      rw [hran] at h
      have hlast : (Worker.called item).unrun ++ (s.queryQ ++ item.chained result) =
          before ++ item' :: (after ++ item.chained result) := by
        have hold : s.queryQ = before ++ item' :: after := h
        simp [Worker.unrun, hold]
      refine .queued hlast hquery hmutex ?_
      rw [List.filterMap_append, hwrites, Ordered.writesFor_chained, hcheck]
      rfl
  | @ran item' values hran' hquery hmutex hanswers =>
      obtain ⟨rfl, rfl⟩ := Worker.ran.inj (hran.symm.trans hran')
      have hnew : resp = some (.settings values) := by
        simp [hresp, State.call, hquery, Query.chain]
      exact .answered hnew hanswers (Or.inr ⟨item, rfl, hmutex⟩)
  | answered hresp' hanswers hor =>
      have hfree : s.mutexFree = true := by
        rcases hor with hfree | ⟨_, hcalled, -⟩
        · exact hfree
        · cases hran.symm.trans hcalled
      have hplain : item.query.isPlain = true := by
        have hmem : item ∈ s.inFlight := by simp [State.inFlight, hran, Worker.items]
        have hwaits : s.waits = false := by rw [State.waits, hfree, Bool.not_true, Bool.and_false]
        exact hshake.plain item hmem (hshake.no_mutex hwaits hmem)
      have hnew : resp = s.resp := hresp.trans (call_resp hfitting hran hplain)
      exact .answered (hnew.trans hresp') hanswers (Or.inl hfree)

theorem unlocked (h : Reads collate s) (hcalled : s.worker = .called item) :
    Reads collate { s with worker := .idle, mutexFree := s.mutexFree || item.mutex } := by
  apply h.of_reading
  · rfl
  · rfl
  intro job stage name _ _ _ hchecks hreading
  have hsame : s.worker.unchained = Worker.idle.unchained := by
    rw [hcalled]
    rfl
  refine ⟨by rwa [State.checksOn, hsame] at hchecks, ?_⟩
  cases hreading with
  | queued h hquery hmutex hwrites =>
      rw [hcalled] at h
      exact .queued h hquery hmutex hwrites
  | ran hran => cases hcalled.symm.trans hran
  | answered hresp hanswers hor =>
      refine .answered hresp hanswers (Or.inl ?_)
      rcases hor with hfree | ⟨item', hcalled', hmutex⟩
      · simp [hfree]
      · obtain rfl := Worker.called.inj (hcalled.symm.trans hcalled')
        simp [hmutex]

end Reads

/-- The invariant of the runs in which reads are queued behind the writes. -/
structure SettingsInv (collate : Text → Text) (s : State) : Prop where
  handshake : Handshake s
  fitting : Fitting collate s
  callers : Callers s
  ordered : ∀ name, Ordered collate s name
  reads : Reads collate s

theorem SettingsInv.initial (db : Database) : SettingsInv collate (.initial db) :=
  ⟨.initial db, .initial db, .initial db, fun _ ↦ .initial db, .initial db⟩

theorem SettingsInv.step (h : SettingsInv collate s) (hguard : SettledRead collate s a)
    (heffect : Effect collate s a s') : SettingsInv collate s' := by
  refine ⟨h.handshake.step heffect, h.fitting.step heffect, h.callers.step heffect,
    fun name ↦ (h.ordered name).step heffect, ?_⟩
  cases heffect with
  | issue request hfree =>
      exact h.reads.issued h.callers request hfree rfl rfl rfl rfl rfl rfl
  | @take call rest hidle hqueue =>
      constructor
      · intro job stage name hlocked
        have hnot := start_isLocked ⟨call, s.taken⟩
        simp only at hlocked
        rw [hlocked] at hnot
        cases hnot
      · intro job response name hreturning hget
        simp only [Job.start] at hreturning
        split_ifs at hreturning with hrefused
        cases hreturning
        simp only at hget
        rw [hget] at hrefused
        cases hrefused
  | @enqueue job stage hready =>
      apply Reads.enqueued h.fitting hready
      case hsettled =>
        intro name hget
        apply hguard rfl
        simp [hready, Handler.readName, hget]
      all_goals rfl
  | pass hlocked hfree hnext => exact h.reads.passed h.handshake h.fitting hlocked hfree hnext
  | passProtect hprotect hfree => exact Reads.passedProtect h.fitting hprotect
  | respond => exact Reads.of_handler rfl (fun _ _ hreturning ↦ by cases hreturning)
  | dequeue hidle hqueue => exact h.reads.dequeued hidle hqueue
  | query htook hrun => exact h.reads.executed h.callers h.ordered htook hrun _
  | call hran => exact h.reads.called h.handshake h.fitting hran
  | unlock hcalled => exact h.reads.unlocked hcalled

/-- In every run in which the `SELECT` of a read is queued only when no call on its name is still to
be chained, a read returns what its caller set the name to last, if nobody else sets the name. -/
theorem get_setting_returns (hrun : Run collate (SettledRead collate) s) {job : Job}
    {response : Response} (hreturning : s.handler = .returning job response)
    (hget : job.request = .getSetting name) (hsole : SoleWriter collate s name job.client)
    (hlast : (s.setsOn collate name).getLast? = some value) :
    response = .rows (some (.settings [value])) := by
  have hinv : SettingsInv collate s :=
    hrun.invariant SettingsInv.initial fun _ hguard heffect h ↦ h.step hguard heffect
  obtain ⟨values, rfl, hanswers⟩ := hinv.reads.returning job response name hreturning hget hsole
  rw [hanswers value hlast]

/-- A setting is read back after its row was inserted. -/
theorem get_setting_returns_inserted : ∃ s job response, Run id (SettledRead id) s ∧
    s.handler = .returning job response ∧ response = .rows (some (.settings [[49]])) := by
  let acts : List Action := [.issue 0 (.setSetting [110] [49]), .take, .enqueue, .respond,
    .dequeue, .query, .call, .unlock, .dequeue, .query, .call, .unlock,
    .issue 0 (.getSetting [110]), .take, .enqueue, .dequeue, .query, .call, .unlock, .resume]
  obtain ⟨s, hs⟩ := Option.isSome_iff_exists.mp (by decide +kernel :
    (replay id (SettledRead id) (.initial ⟨[], [], 1, [], 1, []⟩) acts).isSome = true)
  have hrun : Run id (SettledRead id) s := run_of_replay (.start _) hs
  have hfacts : (replay id (SettledRead id) (.initial ⟨[], [], 1, [], 1, []⟩) acts).any (fun s ↦
      s.handler = .returning ⟨⟨0, .getSetting [110]⟩, 1⟩ (.rows (some (.settings [[49]]))) ∧
        s.sets = [⟨0, [110], [49]⟩]) = true := by
    decide +kernel
  simp only [hs, Option.any_some, decide_eq_true_eq] at hfacts
  obtain ⟨hhandler, hsets⟩ := hfacts
  refine ⟨s, _, _, hrun, hhandler, ?_⟩
  apply get_setting_returns hrun hhandler rfl
  · intro call hcall _
    rw [hsets, List.mem_singleton] at hcall
    rw [hcall]
  · rw [State.setsOn, hsets]
    rfl

/-- A read that is queued behind the `SELECT` of a set but before its `INSERT` finds nothing. -/
theorem get_setting_overtakes : ∃ s job response, Run id (fun _ _ ↦ True) s ∧
    s.handler = .returning job response ∧ job.request = .getSetting [110] ∧
      SoleWriter id s [110] job.client ∧ (s.setsOn id [110]).getLast? = some [49] ∧
        response = .rows (some (.settings [])) := by
  let acts : List Action := [.issue 0 (.setSetting [110] [49]), .take, .enqueue, .respond,
    .issue 0 (.getSetting [110]), .take, .enqueue, .dequeue, .query, .call, .unlock,
    .dequeue, .query, .call, .unlock, .resume]
  obtain ⟨s, hs⟩ := Option.isSome_iff_exists.mp (by decide +kernel :
    (replay id (fun _ _ ↦ True) (.initial ⟨[], [], 1, [], 1, []⟩) acts).isSome = true)
  have hfacts : (replay id (fun _ _ ↦ True) (.initial ⟨[], [], 1, [], 1, []⟩) acts).any (fun s ↦
      s.handler = .returning ⟨⟨0, .getSetting [110]⟩, 1⟩ (.rows (some (.settings []))) ∧
        s.sets = [⟨0, [110], [49]⟩]) = true := by
    decide +kernel
  simp only [hs, Option.any_some, decide_eq_true_eq] at hfacts
  obtain ⟨hhandler, hsets⟩ := hfacts
  refine ⟨s, _, _, run_of_replay (.start _) hs, hhandler, rfl, ?_, ?_, rfl⟩
  · intro call hcall _
    rw [hsets, List.mem_singleton] at hcall
    rw [hcall]
  · rw [State.setsOn, hsets]
    rfl

end HavokMud.Mysql
