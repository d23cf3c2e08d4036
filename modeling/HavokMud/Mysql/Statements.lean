import HavokMud.Mysql.Handshake
import Mathlib.Data.List.Perm.Basic

/-!
# The statements of saves

Every save queues statements.  Requests are numbered as they are taken, and the statements of a save
stay behind everything that was queued for earlier requests.
-/

namespace HavokMud.Mysql

/-! ## The statements of a save -/

/-- What a statement of a save writes, without the id of its row. -/
inductive Written
  | account (account : Account)
  | pc (pc : Pc)
  | attribs (attribs : PcAttribs)
deriving DecidableEq

/-- What a query writes, or what the query that is chained to it will write. -/
def Query.written : Query → Option Written
  | .checkAccount account | .updateAccount account | .insertAccount account =>
      some (.account { account with id := 0 })
  | .checkPc pc | .updatePc pc | .insertPc pc => some (.pc { pc with id := 0 })
  | .checkPcAttribs attribs | .updatePcAttribs attribs | .insertPcAttribs attribs =>
      some (.attribs attribs)
  | _ => none

/-- The loads of accounts and pcs. -/
def Query.isLoad : Query → Bool
  | .loadAccount _ | .loadAccountByConfirm _ | .getPcList _ | .loadPc _ _ | .loadPcAttribs _
  | .findPc _ => true
  | _ => false

def attribsOf (id : ℤ) (sources : List (Text × Text)) : List Written :=
  sources.map fun source ↦ .attribs ⟨id, source.1, source.2⟩

/-- The row that a request saves. -/
def Request.rows : Request → List Written
  | .saveAccount account => [.account { account with id := 0 }]
  | .savePc pc _ => [.pc { pc with id := 0 }]
  | _ => []

/-- The sources that a request saves. -/
def Request.sources : Request → List (Text × Text)
  | .savePc _ sources => sources
  | _ => []

/-- All statements of a save whose row has the id `id`.  Without an id no attributes are saved. -/
def Request.statements (request : Request) (id : ℤ) : List Written :=
  request.rows ++ if id = 0 then [] else attribsOf id request.sources

/-- The statements of a request among the executed ones. -/
def writesIn (log : List (Item × Result)) (job : ℕ) : List Written :=
  log.filterMap fun entry ↦
    if entry.1.job = job ∧ entry.1.query.isWrite then entry.1.query.written else none

/-- The query whose statement is still to come. -/
def Worker.owed : Worker → List Item
  | .took item => [item]
  | .ran item _ => if item.query.isWrite then [] else [item]
  | .idle | .called _ => []

def State.owed (s : State) : List Item :=
  s.worker.owed ++ s.queryQ

/-- What the queries of a request will write. -/
def writesOf (items : List Item) (job : ℕ) : List Written :=
  items.filterMap fun item ↦ if item.job = job then item.query.written else none

/-- The id of the row that a statement wrote in `accounts` or `pcs`. -/
def writtenId : Item × Result → Option ℤ
  | (item, result) =>
      match item.query with
      | .updateAccount account => some account.id
      | .updatePc pc => some pc.id
      | .insertAccount _ | .insertPc _ => some result.insertid
      | _ => none

/-- The queries of a row of `accounts` or `pcs`. -/
def Query.isRow : Query → Bool
  | .checkAccount _ | .updateAccount _ | .insertAccount _ | .checkPc _ | .updatePc _
  | .insertPc _ => true
  | _ => false

/-- The id in the condition of an update. -/
def Query.boundId : Query → Option ℤ
  | .updateAccount account => some account.id
  | .updatePc pc => some pc.id
  | _ => none

/-- The row of a request has the id `id` wherever it was or will be written. -/
structure RowId (s : State) (job : ℕ) (id : ℤ) : Prop where
  logged : ∀ entry ∈ s.log, entry.1.job = job → ∀ i, writtenId entry = some i → i = id
  owed : ∀ item ∈ s.owed, item.job = job → item.query.isRow = true → item.query.boundId = some id

/-! ## The invariant -/

/-- The statements of a request that have been queued. -/
def State.queued (s : State) (job : ℕ) : List Written :=
  writesIn s.log job ++ writesOf s.owed job

/-- How far a save has come. -/
def State.Progress (s : State) : Handler → Prop
  | .idle => True
  | .ready _ .row => True
  | .ready _ (.attribs _) => True
  | .ready job (.source id source left) =>
      (s.queued job.number ++ attribsOf id (source :: left)).Perm (job.request.statements id) ∧
        RowId s job.number id
  | .locked job .row =>
      (s.queued job.number).Perm job.request.rows ∧
        (s.protectFree = true → RowId s job.number s.id)
  | .locked _ (.attribs _) => True
  | .locked job (.source id _ left) =>
      (s.queued job.number ++ attribsOf id left).Perm (job.request.statements id) ∧
        RowId s job.number id
  | .protect job =>
      (s.queued job.number).Perm job.request.rows ∧
        (s.protectFree = true → RowId s job.number s.id)
  | .returning job (.saved id) =>
      (s.queued job.number).Perm (job.request.statements id) ∧ RowId s job.number id
  | .returning _ _ => True

/-- The numbers of requests and what is known of earlier saves. -/
structure Numbered (s : State) : Prop where
  current : ∀ job ∈ s.handler.job, job.number + 1 = s.taken
  flying : ∀ item ∈ s.inFlight, item.job < s.taken
  logged : ∀ entry ∈ s.log, entry.1.job < s.taken
  earlier : ∀ v ∈ s.saved, v.number < s.taken ∧ ∀ job ∈ s.handler.job, v.number < job.number
  /-- Statements of a save are behind everything that was queued for earlier requests. -/
  order : s.inFlight.Pairwise fun x y ↦ y.query.written.isSome → x.job ≤ y.job
  snapshot : ∀ item, item ∈ s.inFlight ∨ item ∈ s.log.map Prod.fst →
    ∀ v ∈ item.saved, v ∈ s.saved ∧ v.number < item.job
  /-- A chained statement belongs to the request that waits. -/
  ran : ∀ item result, s.worker = .ran item result → (item, result) ∈ s.log

/-- Where the saves stand. -/
structure Saving (s : State) : Prop where
  /-- Nothing is queued before the first query. -/
  fresh : ∀ job, s.handler = .ready job .row → s.queued job.number = []
  /-- A row that is not written yet is waited for. -/
  unsaved : ∀ item ∈ s.worker.unchained ++ s.queryQ, item.query.isRow = true →
    item.query.boundId = none → s.protectFree = false ∧ ∃ job, job.number = item.job ∧
      job.request.isSave = true ∧ (s.handler = .locked job .row ∨ s.handler = .protect job)
  progress : s.Progress s.handler
  returned : ∀ v ∈ s.saved, (s.queued v.number).Perm (v.request.statements v.id) ∧
    RowId s v.number v.id

/-! ## Statements in flight -/

variable {collate : Text → Text} {s s' : State} {a : Action} {item : Item} {result : Result}
  {n : ℕ} {id : ℤ}

theorem writesIn_append (log log' : List (Item × Result)) (n : ℕ) :
    writesIn (log ++ log') n = writesIn log n ++ writesIn log' n :=
  List.filterMap_append

theorem writesOf_append (items items' : List Item) (n : ℕ) :
    writesOf (items ++ items') n = writesOf items n ++ writesOf items' n :=
  List.filterMap_append

theorem writesOf_singleton (item : Item) (n : ℕ) :
    writesOf [item] n = if item.job = n then item.query.written.toList else [] := by
  unfold writesOf
  split_ifs with hjob
  · cases hwritten : item.query.written <;> simp [hjob, hwritten]
  · simp [hjob]

theorem written_of_isRow {q : Query} (h : q.isRow = true) : ∃ w, q.written = some w := by
  cases q <;> first | exact ⟨_, rfl⟩ | exact absurd h Bool.false_ne_true

/-- An id is logged with the row that is written. -/
theorem isWrite_of_writtenId {entry : Item × Result} {i : ℤ} (h : writtenId entry = some i) :
    entry.1.query.isWrite = true ∧ entry.1.query.isRow = true := by
  obtain ⟨item, result⟩ := entry
  dsimp only
  cases hquery : item.query with
  | updateAccount account => exact ⟨rfl, rfl⟩
  | insertAccount account => exact ⟨rfl, rfl⟩
  | updatePc pc => exact ⟨rfl, rfl⟩
  | insertPc pc => exact ⟨rfl, rfl⟩
  | _ =>
      rw [writtenId] at h
      simp only [hquery, reduceCtorEq] at h

/-- A chained query writes what was checked. -/
theorem written_chain {q q' : Query} {count : ℕ} (h : q.chain count = some q') :
    q'.written = q.written := by
  cases q <;> simp only [Query.chain, reduceCtorEq, Option.some.injEq] at h <;> subst h <;>
    split_ifs <;> rfl

theorem writesOf_chained (hwrite : item.query.isWrite = false) (n : ℕ) :
    writesOf (item.chained result) n = writesOf [item] n := by
  rw [writesOf_singleton]
  unfold Item.chained
  cases hchain : item.query.chain result.count with
  | none =>
      have hnone : item.query.written = none := by
        cases hquery : item.query <;>
          simp_all [Query.isWrite, Query.chain, Query.written]
      simp [hnone, writesOf]
  | some q =>
      rw [Option.toList_some, List.map_singleton, writesOf_singleton, written_chain hchain]

theorem queued_congr (hlog : s'.log = s.log) (howed : s'.owed = s.owed) (n : ℕ) :
    s'.queued n = s.queued n := by
  rw [State.queued, hlog, howed, State.queued]

theorem RowId.congr (h : RowId s n id) (hlog : s'.log = s.log) (howed : s'.owed = s.owed) :
    RowId s' n id := by
  constructor
  · rw [hlog]
    exact h.logged
  · rw [howed]
    exact h.owed

/-- A statement that is executed stays queued. -/
theorem queued_executed (htook : s.worker = .took item) (hworker : s'.worker = .ran item result)
    (hlog : s'.log = s.log ++ [(item, result)]) (hqueue : s'.queryQ = s.queryQ) (n : ℕ) :
    s'.queued n = s.queued n := by
  have howed : s.owed = [item] ++ s.queryQ := by rw [State.owed, htook, Worker.owed]
  rw [State.queued, State.queued, hlog, writesIn_append, howed, writesOf_append,
    State.owed, hworker,
    hqueue, Worker.owed, writesOf_append, List.append_assoc]
  congr 1
  cases hwrite : item.query.isWrite with
  | true =>
      have hnew : writesIn [(item, result)] n = writesOf [item] n := by
        simp only [writesIn, writesOf, List.filterMap_cons, List.filterMap_nil, hwrite, and_true]
      rw [if_pos rfl, hnew]
      rfl
  | false =>
      have hnew : writesIn [(item, result)] n = [] := by simp [writesIn, hwrite]
      rw [if_neg Bool.false_ne_true, hnew]
      rfl

theorem RowId.executed (h : RowId s n id) (htook : s.worker = .took item)
    (hworker : s'.worker = .ran item result) (hlog : s'.log = s.log ++ [(item, result)])
    (hqueue : s'.queryQ = s.queryQ) : RowId s' n id := by
  have hmem : item ∈ s.owed := by
    rw [State.owed, htook]
    exact List.mem_cons_self
  constructor
  · intro entry hentry hjob i hi
    rw [hlog] at hentry
    rcases List.mem_append.mp hentry with hold | hnew
    · exact h.logged entry hold hjob i hi
    · obtain rfl := List.mem_singleton.mp hnew
      have hbound := h.owed item hmem hjob
      -- an insert would have no id in its condition
      cases hquery : item.query <;>
        simp_all [writtenId, Query.isRow, Query.boundId]
  · intro item' hitem
    apply h.owed item'
    rw [State.owed, hworker, hqueue] at hitem
    rw [State.owed, htook]
    rcases List.mem_append.mp hitem with hold | hold
    · rw [Worker.owed] at hold
      split_ifs at hold
      · exact absurd hold List.not_mem_nil
      · exact List.mem_append_left _ hold
    · exact List.mem_append_right _ hold

theorem chained_of_isWrite (h : item.query.isWrite = true) : item.chained result = [] := by
  unfold Item.chained
  cases hquery : item.query <;> rw [hquery] at h <;> first | rfl | cases h

/-- A chain function puts the statement to the end of the queue. -/
theorem writesOf_called (hran : s.worker = .ran item result) (n : ℕ) :
    (writesOf (s.queryQ ++ item.chained result) n).Perm (writesOf s.owed n) := by
  rw [State.owed, hran, Worker.owed]
  cases hwrite : item.query.isWrite with
  | true => rw [chained_of_isWrite hwrite, List.append_nil, if_pos rfl, List.nil_append]
  | false =>
      rw [if_neg Bool.false_ne_true, writesOf_append, writesOf_append, writesOf_chained hwrite]
      exact List.perm_append_comm

theorem queued_called (hran : s.worker = .ran item result) (hworker : s'.worker = .called item)
    (hlog : s'.log = s.log) (hqueue : s'.queryQ = s.queryQ ++ item.chained result) (n : ℕ) :
    (s'.queued n).Perm (s.queued n) := by
  rw [State.queued, State.queued, hlog, State.owed, hworker, hqueue]
  exact (writesOf_called hran n).append_left _

theorem boundId_of_not_isWrite {q : Query} (h : q.isWrite = false) : q.boundId = none := by
  cases q <;> first | rfl | cases h

theorem isRow_chain {q q' : Query} {count : ℕ} (h : q.chain count = some q') :
    q'.isRow = q.isRow := by
  cases q <;> simp only [Query.chain, reduceCtorEq, Option.some.injEq] at h <;> subst h <;>
    split_ifs <;> rfl

theorem RowId.called (h : RowId s n id) (hran : s.worker = .ran item result)
    (hworker : s'.worker = .called item) (hlog : s'.log = s.log)
    (hqueue : s'.queryQ = s.queryQ ++ item.chained result) : RowId s' n id := by
  constructor
  · rw [hlog]
    exact h.logged
  · intro item' hitem hjob hrow
    rw [State.owed, hworker, hqueue, Worker.owed, List.nil_append] at hitem
    rcases List.mem_append.mp hitem with hold | hnew
    · exact h.owed item' (List.mem_append_right _ hold) hjob hrow
    · -- the check of a row has no id in its condition, so there is none
      obtain ⟨-, -, hjob', -, hchain⟩ := mem_chained hnew
      have hcheck : item.query.isWrite = false := by
        by_contra hwrite
        rw [chained_of_isWrite (by simpa using hwrite)] at hnew
        cases hnew
      have hmem : item ∈ s.owed := by
        rw [State.owed, hran, Worker.owed, hcheck]
        exact List.mem_cons_self
      have hbound := h.owed item hmem (hjob'.symm.trans hjob) (isRow_chain hchain ▸ hrow)
      rw [boundId_of_not_isWrite hcheck] at hbound
      cases hbound

/-- What is neither a check nor an insert of a row leaves the `ProtectedData_t`. -/
theorem call_protect_other (s : State) (result : Result)
    (h : item.query.isRow = false ∨ item.query.boundId ≠ none) :
    (s.call item result).id = s.id ∧ (s.call item result).protectFree = s.protectFree := by
  unfold State.call
  cases hquery : item.query <;> rw [hquery] at h <;>
    first
    | exact ⟨rfl, rfl⟩
    | (cases result <;> exact ⟨rfl, rfl⟩)
    | simp [Query.isRow, Query.boundId] at h

/-- The `ProtectedData_t` is unlocked for an update, or by the callback of an insert. -/
theorem call_protect_row (hrow : item.query.isRow = true) (hbound : item.query.boundId = none)
    (hlocked : s.protectFree = false) (hfree : (s.call item result).protectFree = true) :
    (item.query.isWrite = false ∧
      ∀ item' ∈ item.chained result, item'.query.boundId = some (s.call item result).id) ∨
    (item.query.isWrite = true ∧ writtenId (item, result) = some (s.call item result).id) := by
  unfold State.call at hfree ⊢
  cases hquery : item.query with
  | checkAccount account =>
      refine Or.inl ⟨rfl, fun item' hitem ↦ ?_⟩
      obtain ⟨-, -, -, -, hchain⟩ := mem_chained hitem
      simp only [hquery, Query.chain, hlocked, Bool.false_or, decide_eq_true_eq] at hfree hchain ⊢
      rw [if_pos hfree] at hchain
      rw [← Option.some.inj hchain]
      rfl
  | checkPc pc =>
      refine Or.inl ⟨rfl, fun item' hitem ↦ ?_⟩
      obtain ⟨-, -, -, -, hchain⟩ := mem_chained hitem
      simp only [hquery, Query.chain, hlocked, Bool.false_or, decide_eq_true_eq] at hfree hchain ⊢
      rw [if_pos hfree] at hchain
      rw [← Option.some.inj hchain, if_pos (by simpa using hfree)]
      rfl
  | insertAccount account =>
      refine Or.inr ⟨rfl, ?_⟩
      simp only [hquery, Query.chain] at hfree ⊢
      cases result with
      | done insertid =>
          simp only at hfree ⊢
          split_ifs at hfree ⊢
          · rw [hlocked] at hfree
            cases hfree
          · simp only [writtenId, hquery, Result.insertid]
      | _ =>
          rw [hlocked] at hfree
          cases hfree
  | insertPc pc =>
      refine Or.inr ⟨rfl, ?_⟩
      simp only [hquery, Query.chain] at hfree ⊢
      cases result with
      | done insertid =>
          simp only at hfree ⊢
          split_ifs at hfree ⊢
          · rw [hlocked] at hfree
            cases hfree
          · simp only [writtenId, hquery, Result.insertid]
      | _ =>
          rw [hlocked] at hfree
          cases hfree
  | updateAccount account => simp [hquery, Query.boundId] at hbound
  | updatePc pc => simp [hquery, Query.boundId] at hbound
  | _ => simp [hquery, Query.isRow] at hrow

/-- Two elements that a filter keeps are the same if it keeps one element. -/
theorem eq_of_filterMap_length_le_one {α β : Type} {f : α → Option β} {l : List α} {x y : α}
    (h : (l.filterMap f).length ≤ 1) (hx : x ∈ l) (hy : y ∈ l) (hfx : (f x).isSome)
    (hfy : (f y).isSome) : x = y := by
  induction l with
  | nil => exact absurd hx List.not_mem_nil
  | cons z l ih =>
      cases hz : f z with
      | none =>
          rw [List.filterMap_cons_none hz] at h
          have hxz : x ≠ z := by
            rintro rfl
            simp [hz] at hfx
          have hyz : y ≠ z := by
            rintro rfl
            simp [hz] at hfy
          exact ih h ((List.mem_cons.mp hx).resolve_left hxz)
            ((List.mem_cons.mp hy).resolve_left hyz)
      | some w =>
          rw [List.filterMap_cons_some hz, List.length_cons] at h
          have hnil : l.filterMap f = [] := List.length_eq_zero_iff.mp (by omega)
          have hnone (u : α) (hu : u ∈ l) (hfu : (f u).isSome) : False := by
            rw [List.filterMap_eq_nil_iff.mp hnil u hu] at hfu
            cases hfu
          rcases List.mem_cons.mp hx with rfl | hx
          · rcases List.mem_cons.mp hy with rfl | hy
            · rfl
            · exact (hnone y hy hfy).elim
          · exact (hnone x hx hfx).elim

/-! ## Numbers -/

namespace Numbered

theorem initial (db : Database) : Numbered (.initial db) where
  current _ h := absurd h List.not_mem_nil
  flying _ h := absurd h List.not_mem_nil
  logged _ h := absurd h List.not_mem_nil
  earlier _ h := absurd h List.not_mem_nil
  order := List.Pairwise.nil
  snapshot _ h := by rcases h with h | h <;> exact absurd h List.not_mem_nil
  ran _ _ h := by cases h

/-- A step that keeps the queries and leaves the request in hand. -/
theorem of_eq (h : Numbered s) (hjob : s'.handler.job = s.handler.job)
    (hflight : s'.inFlight = s.inFlight) (hlog : s'.log = s.log) (hsaved : s'.saved = s.saved)
    (htaken : s'.taken = s.taken)
    (hran : ∀ item result, s'.worker = .ran item result → s.worker = .ran item result) :
    Numbered s' := by
  constructor
  · rw [hjob, htaken]
    exact h.current
  · rw [hflight, htaken]
    exact h.flying
  · rw [hlog, htaken]
    exact h.logged
  · rw [hsaved, hjob, htaken]
    exact h.earlier
  · rw [hflight]
    exact h.order
  · rw [hflight, hlog, hsaved]
    exact h.snapshot
  · intro item result hworker
    rw [hlog]
    exact h.ran item result (hran item result hworker)

/-- A query of the request in hand comes behind everything. -/
theorem enqueued (h : Numbered s) (job : Job) (hjob : job ∈ s.handler.job)
    (hjob' : s'.handler.job = s.handler.job) (hflight : s'.inFlight = s.inFlight ++ [item])
    (hnumber : item.job = job.number) (hsnap : item.saved = s.saved) (hlog : s'.log = s.log)
    (hsaved : s'.saved = s.saved) (htaken : s'.taken = s.taken) (hworker : s'.worker = s.worker) :
    Numbered s' := by
  have hcurrent := h.current job hjob
  constructor
  · rw [hjob', htaken]
    exact h.current
  · intro item' hitem
    rw [hflight] at hitem
    rw [htaken]
    rcases List.mem_append.mp hitem with hold | hnew
    · exact h.flying item' hold
    · rw [List.mem_singleton.mp hnew]
      omega
  · rw [hlog, htaken]
    exact h.logged
  · rw [hsaved, hjob', htaken]
    exact h.earlier
  · rw [hflight, List.pairwise_append]
    refine ⟨h.order, List.pairwise_singleton _ _, fun x hx y hy _ ↦ ?_⟩
    have hlt := h.flying x hx
    rw [List.mem_singleton.mp hy]
    omega
  · intro item' hitem v hv
    rw [hflight, hlog, List.mem_append] at hitem
    rw [hsaved]
    rcases hitem with (hold | hnew) | hold
    · exact h.snapshot item' (Or.inl hold) v hv
    · obtain rfl := List.mem_singleton.mp hnew
      rw [hsnap] at hv
      rw [hnumber]
      exact ⟨hv, (h.earlier v hv).2 job hjob⟩
    · exact h.snapshot item' (Or.inr hold) v hv
  · rw [hworker, hlog]
    exact h.ran

/-- A chain function runs for the request in hand, if it queues a statement of a save. -/
theorem called (h : Numbered s) (hshake : Handshake s) (hran : s.worker = .ran item result)
    (hworker : s'.worker = .called item) (hqueue : s'.queryQ = s.queryQ ++ item.chained result)
    (hhandler : s'.handler = s.handler) (hlog : s'.log = s.log) (hsaved : s'.saved = s.saved)
    (htaken : s'.taken = s.taken) : Numbered s' := by
  have hmem : item ∈ s.inFlight := by simp [State.inFlight, hran, Worker.items]
  have hflight : s'.inFlight = s.inFlight ++ item.chained result := by
    rw [State.inFlight, hworker, hqueue, State.inFlight, hran, ← List.append_assoc]
    rfl
  have hnew (y : Item) (hy : y ∈ item.chained result) :
      y.job = item.job ∧ y.saved = item.saved := ⟨(mem_chained hy).2.2.1, (mem_chained hy).2.2.2.1⟩
  constructor
  · rw [hhandler, htaken]
    exact h.current
  · intro item' hitem
    rw [hflight] at hitem
    rw [htaken]
    rcases List.mem_append.mp hitem with hold | hadded
    · exact h.flying item' hold
    · rw [(hnew item' hadded).1]
      exact h.flying item hmem
  · rw [hlog, htaken]
    exact h.logged
  · rw [hsaved, hhandler, htaken]
    exact h.earlier
  · rw [hflight, List.pairwise_append]
    refine ⟨h.order, ?_, fun x hx y hy hwritten ↦ ?_⟩
    · unfold Item.chained
      cases item.query.chain result.count with
      | none => exact List.Pairwise.nil
      | some q => exact List.pairwise_singleton _ _
    · -- the check of a save has a mutex, so it belongs to the last request
      have hcheck : item.query.written.isSome := by
        rwa [← written_chain (mem_chained hy).2.2.2.2]
      have hmutex : item.mutex = true := by
        by_contra hno
        have hplain := hshake.plain item hmem (by simpa using hno)
        have hchain := (mem_chained hy).2.2.2.2
        cases hquery : item.query <;>
          simp_all [Query.isPlain, Query.isWrite, Query.written, Query.chain]
      obtain ⟨job, stage, hlocked, -, hjob⟩ := hshake.owner item hmem hmutex
      have hnumber := h.current job (by rw [hlocked]; exact List.mem_singleton_self _)
      have hlt := h.flying x hx
      rw [(hnew y hy).1, hjob]
      omega
  · intro item' hitem v hv
    rw [hflight, hlog, List.mem_append] at hitem
    rw [hsaved]
    rcases hitem with (hold | hadded) | hold
    · exact h.snapshot item' (Or.inl hold) v hv
    · rw [(hnew item' hadded).2] at hv
      rw [(hnew item' hadded).1]
      exact h.snapshot item (Or.inl hmem) v hv
    · exact h.snapshot item' (Or.inr hold) v hv
  · rw [hworker]
    intro _ _ hran
    cases hran

theorem step (h : Numbered s) (hshake : Handshake s) (heffect : Effect collate s a s') :
    Numbered s' := by
  cases heffect with
  | issue => exact ⟨h.current, h.flying, h.logged, h.earlier, h.order, h.snapshot, h.ran⟩
  | @take call rest hidle hqueue =>
      have hlt {k : ℕ} (hk : k < s.taken) : k < s.taken + 1 := by omega
      have hjobs (job : Job) (hjob : job ∈ (Job.start ⟨call, s.taken⟩).job) :
          job.number = s.taken := by
        rw [start_job, List.mem_singleton] at hjob
        rw [hjob]
      constructor
      · intro job hjob
        rw [hjobs job hjob]
      · exact fun item hitem ↦ hlt (h.flying item hitem)
      · exact fun entry hentry ↦ hlt (h.logged entry hentry)
      · intro v hv
        refine ⟨hlt (h.earlier v hv).1, fun job hjob ↦ ?_⟩
        rw [hjobs job hjob]
        exact (h.earlier v hv).1
      · exact h.order
      · exact h.snapshot
      · exact h.ran
  | @enqueue job stage hready =>
      apply h.enqueued job
      case hjob =>
        rw [hready]
        exact List.mem_singleton_self _
      case hjob' =>
        rw [hready]
        cases job.request.blocks <;> rfl
      case hflight => exact (List.append_assoc ..).symm
      all_goals rfl
  | pass hlocked hfree hnext =>
      apply h.of_eq
      case hjob =>
        rw [hlocked]
        exact afterMutex_job hnext
      case hran => exact fun _ _ hran ↦ hran
      all_goals rfl
  | passProtect hprotect hfree =>
      apply h.of_eq
      case hjob =>
        rw [hprotect]
        exact afterProtect_job _ _
      case hran => exact fun _ _ hran ↦ hran
      all_goals rfl
  | @respond job response hreturning =>
      have hcurrent := h.current job (by rw [hreturning]; exact List.mem_singleton_self _)
      constructor
      · exact fun _ hjob ↦ absurd hjob List.not_mem_nil
      · exact h.flying
      · exact h.logged
      · intro v hv
        refine ⟨?_, fun _ hjob ↦ absurd hjob List.not_mem_nil⟩
        rcases List.mem_append.mp hv with hold | hnew
        · exact (h.earlier v hold).1
        · cases response with
          | saved id =>
              obtain rfl := List.mem_singleton.mp hnew
              simp only
              omega
          | _ => exact absurd hnew List.not_mem_nil
      · exact h.order
      · intro item hitem v hv
        obtain ⟨hmem, hlt⟩ := h.snapshot item hitem v hv
        exact ⟨List.mem_append_left _ hmem, hlt⟩
      · exact h.ran
  | @dequeue item rest hidle hqueue =>
      apply h.of_eq
      case hflight =>
        rw [State.inFlight, State.inFlight, hidle, hqueue]
        rfl
      case hran =>
        intro _ _ hran
        cases hran
      all_goals rfl
  | @query item db result htook hrun =>
      have hflight : [item] ++ s.queryQ = s.inFlight := by
        rw [State.inFlight, htook]
        rfl
      have hmem : item ∈ s.inFlight := by
        rw [← hflight]
        exact List.mem_cons_self
      constructor
      · exact h.current
      · exact fun item' hitem ↦ h.flying item' (hflight ▸ hitem)
      · intro entry hentry
        rcases List.mem_append.mp hentry with hold | hnew
        · exact h.logged entry hold
        · rw [List.mem_singleton.mp hnew]
          exact h.flying item hmem
      · exact h.earlier
      · have horder := h.order
        rwa [← hflight] at horder
      · intro item' hitem
        rw [List.map_append, List.mem_append] at hitem
        rcases hitem with hold | hold | hnew
        · exact h.snapshot item' (Or.inl (hflight ▸ hold))
        · exact h.snapshot item' (Or.inr hold)
        · rw [List.mem_singleton.mp hnew]
          exact h.snapshot item (Or.inl hmem)
      · intro item' result' hran
        cases hran
        exact List.mem_append_right _ (List.mem_singleton_self _)
  | @call item result hran =>
      obtain ⟨id, protectFree, resp, hcall⟩ := call_eq s item result
      rw [hcall]
      apply h.called hshake hran
      all_goals rfl
  | @unlock item hcalled =>
      have hflight : s.inFlight = item :: s.queryQ := by
        rw [State.inFlight, hcalled]
        rfl
      have hmem (item' : Item) (hitem : item' ∈ s.queryQ) : item' ∈ s.inFlight := by
        rw [hflight]
        exact List.mem_cons_of_mem _ hitem
      constructor
      · exact h.current
      · exact fun item' hitem ↦ h.flying item' (hmem item' hitem)
      · exact h.logged
      · exact h.earlier
      · have horder := h.order
        rw [hflight] at horder
        exact (List.pairwise_cons.mp horder).2
      · exact fun item' hitem ↦ h.snapshot item' (hitem.imp_left (hmem item'))
      · intro _ _ hran
        cases hran

end Numbered

end HavokMud.Mysql
