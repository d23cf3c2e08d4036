import HavokMud.Mysql.Statements

/-!
# How far a save has come

At every moment the statements that a save has queued, together with those it is still to queue, are
the statements of its request, and its row has the id that it goes on with.
-/

namespace HavokMud.Mysql

variable {collate : Text → Text} {s s' : State} {a : Action} {item : Item} {result : Result}
  {n : ℕ} {id : ℤ}

theorem writesIn_eq_nil {log : List (Item × Result)} (h : ∀ entry ∈ log, entry.1.job ≠ n) :
    writesIn log n = [] := by
  apply List.filterMap_eq_nil_iff.mpr
  intro entry hentry
  rw [if_neg]
  exact fun hand ↦ h entry hentry hand.1

theorem writesOf_eq_nil {items : List Item} (h : ∀ item ∈ items, item.job ≠ n) :
    writesOf items n = [] := by
  apply List.filterMap_eq_nil_iff.mpr
  intro item hitem
  rw [if_neg (h item hitem)]

theorem owed_subset_inFlight (h : item ∈ s.owed) : item ∈ s.inFlight := by
  rcases List.mem_append.mp h with hworker | hqueue
  · apply List.mem_append_left
    cases hw : s.worker with
    | ran item' result' =>
        rw [hw, Worker.owed] at hworker
        split_ifs at hworker
        · exact absurd hworker List.not_mem_nil
        · exact hworker
    | took item' =>
        rw [hw] at hworker
        exact hworker
    | idle =>
        rw [hw] at hworker
        exact absurd hworker List.not_mem_nil
    | called item' =>
        rw [hw] at hworker
        exact absurd hworker List.not_mem_nil
  · exact List.mem_append_right _ hqueue

/-- What a handler says of its save only depends on what is queued. -/
theorem Progress.congr {h : Handler} (hprogress : s.Progress h)
    (hqueued : ∀ n, (s'.queued n).Perm (s.queued n))
    (hrow : ∀ n id, RowId s n id → RowId s' n id)
    (hprotect : ∀ job, h = .locked job .row ∨ h = .protect job → s'.protectFree = true →
      RowId s' job.number s'.id) : s'.Progress h := by
  cases h with
  | idle => trivial
  | ready job stage =>
      cases stage with
      | source id source left =>
          exact ⟨((hqueued _).append_right _).trans hprogress.1, hrow _ _ hprogress.2⟩
      | _ => trivial
  | locked job stage =>
      cases stage with
      | row => exact ⟨(hqueued _).trans hprogress.1, hprotect job (Or.inl rfl)⟩
      | attribs pc => trivial
      | source id source left =>
          exact ⟨((hqueued _).append_right _).trans hprogress.1, hrow _ _ hprogress.2⟩
  | protect job => exact ⟨(hqueued _).trans hprogress.1, hprotect job (Or.inr rfl)⟩
  | returning job response =>
      cases response with
      | saved id => exact ⟨(hqueued _).trans hprogress.1, hrow _ _ hprogress.2⟩
      | _ => trivial

/-- The row of a save whose `ProtectedData_t` is unlocked has the id it points to. -/
theorem Progress.rowId {h : Handler} (hprogress : s.Progress h) {job : Job}
    (hor : h = .locked job .row ∨ h = .protect job) :
    (s.queued job.number).Perm job.request.rows ∧
      (s.protectFree = true → RowId s job.number s.id) := by
  rcases hor with rfl | rfl
  · exact hprogress
  · exact hprogress

namespace Saving

theorem initial (db : Database) : Saving (.initial db) where
  fresh _ h := by cases h
  unsaved _ h := absurd h List.not_mem_nil
  progress := trivial
  returned _ h := absurd h List.not_mem_nil

/-- Behind the mutex or the `ProtectedData_t` of a save. -/
theorem progress_afterProtect {job : Job} (hsave : job.request.isSave = true)
    (hqueued : (s.queued job.number).Perm job.request.rows) (hrow : RowId s job.number id) :
    s.Progress (job.afterProtect id) := by
  unfold Job.afterProtect
  cases hrequest : job.request with
  | savePc pc sources =>
      rw [hrequest] at hqueued
      simp only
      split_ifs with hid
      · refine ⟨?_, hrow⟩
        rw [hrequest, Request.statements, if_pos hid, List.append_nil]
        exact hqueued
      · have hall : (s.queued job.number ++ attribsOf id sources).Perm
            (Request.statements (.savePc pc sources) id) := by
          rw [Request.statements, if_neg hid]
          exact hqueued.append_right _
        cases sources with
        | nil =>
            refine ⟨?_, hrow⟩
            rwa [attribsOf, List.map_nil, List.append_nil, ← hrequest] at hall
        | cons source left => exact ⟨by rwa [hrequest], hrow⟩
  | saveAccount account =>
      refine ⟨?_, hrow⟩
      rw [hrequest] at hqueued ⊢
      have hnone : (Request.statements (.saveAccount account) id) =
          Request.rows (.saveAccount account) := by
        simp [Request.statements, Request.sources, attribsOf]
      rw [hnone]
      exact hqueued
  | _ =>
      rw [hrequest] at hsave
      cases hsave

theorem progress_afterMutex (hprogress : s.Progress s.handler) {job : Job} {stage : Stage}
    {next : Handler} (hlocked : s.handler = .locked job stage)
    (hnext : job.afterMutex s.resp stage = some next) : s.Progress next := by
  rw [hlocked] at hprogress
  cases stage with
  | row =>
      simp only [Job.afterMutex] at hnext
      split at hnext
      · cases hnext
        exact hprogress
      · cases hnext
        exact hprogress
      · split_ifs at hnext
        cases hnext
        trivial
      · cases hnext
      · cases hnext
        trivial
  | attribs pc =>
      cases hnext
      trivial
  | source id source left =>
      cases hnext
      cases left with
      | nil =>
          refine ⟨?_, hprogress.2⟩
          have hall := hprogress.1
          rwa [attribsOf, List.map_nil, List.append_nil] at hall
      | cons source' left => exact hprogress

/-- A row that has just been written is the only one. -/
theorem rowId_of_called (hnumbered : Numbered s) {job : Job}
    (hqueued : (s.queued job.number).Perm job.request.rows) (hran : s.worker = .ran item result)
    (hjob : item.job = job.number) (hrow : item.query.isRow = true)
    (hbound : item.query.boundId = none) (hlocked : s.protectFree = false)
    (hfree : (s.call item result).protectFree = true) (hworker : s'.worker = .called item)
    (hqueue : s'.queryQ = s.queryQ ++ item.chained result) (hlog : s'.log = s.log) :
    RowId s' job.number (s.call item result).id := by
  obtain ⟨w, hw⟩ := written_of_isRow hrow
  have hone : (s.queued job.number).length ≤ 1 := by
    rw [hqueued.length_eq]
    cases job.request <;> simp [Request.rows]
  rw [State.queued, List.length_append] at hone
  have howed : s'.owed = s.queryQ ++ item.chained result := by
    rw [State.owed, hworker, hqueue]
    rfl
  rcases call_protect_row hrow hbound hlocked hfree with ⟨hcheck, hid⟩ | ⟨hwrite, hid⟩
  · -- an update was queued: nothing is logged and nothing else is owed
    have hqueue' : s.owed = [item] ++ s.queryQ := by
      rw [State.owed, hran, Worker.owed, hcheck]
      rfl
    have hhead : writesOf [item] job.number = [w] := by
      rw [writesOf_singleton, if_pos hjob, hw]
      rfl
    rw [hqueue', writesOf_append, hhead] at hone
    simp only [List.length_append, List.length_singleton] at hone
    have hnolog : writesIn s.log job.number = [] := List.length_eq_zero_iff.mp (by omega)
    have hnoqueue : writesOf s.queryQ job.number = [] := List.length_eq_zero_iff.mp (by omega)
    constructor
    · intro entry hentry hjob' i hi
      rw [hlog] at hentry
      have hnone := List.filterMap_eq_nil_iff.mp hnolog entry hentry
      obtain ⟨hwrite', hrow'⟩ := isWrite_of_writtenId hi
      obtain ⟨w', hw'⟩ := written_of_isRow hrow'
      rw [if_pos ⟨hjob', hwrite'⟩, hw'] at hnone
      cases hnone
    · intro item' hitem hjob' hrow'
      rw [howed] at hitem
      rcases List.mem_append.mp hitem with hold | hnew
      · obtain ⟨w', hw'⟩ := written_of_isRow hrow'
        have hnone := List.filterMap_eq_nil_iff.mp hnoqueue item' hold
        rw [if_pos hjob', hw'] at hnone
        cases hnone
      · exact hid item' hnew
  · -- an insert was executed: it is the only statement
    have hmem := hnumbered.ran item result hran
    have hkept : (if item.job = job.number ∧ item.query.isWrite then item.query.written
        else none) = some w := by
      rw [if_pos ⟨hjob, hwrite⟩, hw]
    have hpos : 0 < (writesIn s.log job.number).length := by
      apply List.length_pos_of_mem (a := w)
      exact List.mem_filterMap.mpr ⟨(item, result), hmem, hkept⟩
    have hnoqueue : writesOf s.owed job.number = [] := List.length_eq_zero_iff.mp (by omega)
    have hsingle : (writesIn s.log job.number).length ≤ 1 := by omega
    constructor
    · intro entry hentry hjob' i hi
      rw [hlog] at hentry
      have hentry' : (if entry.1.job = job.number ∧ entry.1.query.isWrite then
          entry.1.query.written else none).isSome := by
        obtain ⟨hwrite', hrow'⟩ := isWrite_of_writtenId hi
        obtain ⟨w', hw'⟩ := written_of_isRow hrow'
        rw [if_pos ⟨hjob', hwrite'⟩, hw']
        rfl
      obtain rfl := eq_of_filterMap_length_le_one hsingle hentry hmem hentry' (by rw [hkept]; rfl)
      rw [hid] at hi
      exact (Option.some.inj hi).symm
    · intro item' hitem hjob' hrow'
      rw [howed, chained_of_isWrite hwrite, List.append_nil] at hitem
      obtain ⟨w', hw'⟩ := written_of_isRow hrow'
      have hnone := List.filterMap_eq_nil_iff.mp hnoqueue item' (List.mem_append_right _ hitem)
      rw [if_pos hjob', hw'] at hnone
      cases hnone

/-- A step that leaves the statements and only moves the handler. -/
theorem of_handler (h : Saving s) (hlog : s'.log = s.log) (howed : s'.owed = s.owed)
    (hprotect : s'.protectFree = s.protectFree) (hid : s'.id = s.id) (hsaved : s'.saved = s.saved)
    (hfresh : ∀ job, s'.handler = .ready job .row → s.queued job.number = [])
    (hunsaved : ∀ item ∈ s'.worker.unchained ++ s'.queryQ, item.query.isRow = true →
      item.query.boundId = none → s.protectFree = false ∧ ∃ job, job.number = item.job ∧
        job.request.isSave = true ∧ (s'.handler = .locked job .row ∨ s'.handler = .protect job))
    (hprogress : s.Progress s'.handler) : Saving s' := by
  have hqueued := queued_congr hlog howed
  have hrow (n : ℕ) (id : ℤ) (h : RowId s n id) : RowId s' n id := h.congr hlog howed
  constructor
  · intro job hready
    rw [hqueued]
    exact hfresh job hready
  · rw [hprotect]
    exact hunsaved
  · apply Progress.congr hprogress (fun n ↦ hqueued n ▸ List.Perm.refl _) hrow
    intro job hor hfree
    rw [hprotect] at hfree
    rw [hid]
    exact hrow _ _ ((Progress.rowId hprogress hor).2 hfree)
  · intro v hv
    rw [hsaved] at hv
    rw [hqueued]
    exact ⟨(h.returned v hv).1, hrow _ _ (h.returned v hv).2⟩

/-- Only a handler that waits for a row has one that is not written. -/
theorem written_of_handler (h : Saving s) (hlocked : ∀ job, s.handler ≠ .locked job .row)
    (hprotect : ∀ job, s.handler ≠ .protect job) (hitem : item ∈ s.worker.unchained ++ s.queryQ)
    (hrow : item.query.isRow = true) (hbound : item.query.boundId = none) : False := by
  obtain ⟨-, job, -, -, hor⟩ := h.unsaved item hitem hrow hbound
  rcases hor with h' | h'
  · exact hlocked job h'
  · exact hprotect job h'

theorem query_row_written (request : Request) :
    request.query.written.toList = request.rows := by
  cases request <;> rfl

theorem enqueued (h : Saving s) (hnumbered : Numbered s) (item : Item) {job : Job} {stage : Stage}
    (hready : s.handler = .ready job stage) (hlog : s'.log = s.log) (hworker : s'.worker = s.worker)
    (hsaved : s'.saved = s.saved) (hquery : item.query = job.query stage)
    (hjob : item.job = job.number) (hqueue : s'.queryQ = s.queryQ ++ [item])
    (hprotect : s'.protectFree = if stage = .row then false else s.protectFree)
    (hhandler : s'.handler =
      if job.request.blocks then .locked job stage else .returning job .null) : Saving s' := by
  have howed : s'.owed = s.owed ++ [item] := by
    rw [State.owed, hworker, hqueue, ← List.append_assoc, State.owed]
  have hqueued (n : ℕ) : s'.queued n = s.queued n ++ writesOf [item] n := by
    rw [State.queued, hlog, howed, writesOf_append, ← List.append_assoc, State.queued]
  have hother {n : ℕ} (hne : job.number ≠ n) : s'.queued n = s.queued n := by
    rw [hqueued, writesOf_singleton, if_neg (by rwa [hjob]), List.append_nil]
  have hrowId {n : ℕ} {id : ℤ} (hrow : RowId s n id)
      (hnew : item.job = n → item.query.isRow = false) : RowId s' n id := by
    constructor
    · rw [hlog]
      exact hrow.logged
    · intro item' hitem hn hisRow
      rw [howed] at hitem
      rcases List.mem_append.mp hitem with hold | hadded
      · exact hrow.owed item' hold hn hisRow
      · rw [List.mem_singleton.mp hadded] at hn hisRow
        rw [hnew hn] at hisRow
        cases hisRow
  have hcurrent : job ∈ s.handler.job := by
    rw [hready]
    exact List.mem_singleton_self _
  constructor
  · intro job' hready'
    rw [hhandler] at hready'
    split_ifs at hready'
  · intro item' hitem hrow hbound
    rw [hworker, hqueue, ← List.append_assoc] at hitem
    rcases List.mem_append.mp hitem with hold | hadded
    · exact (h.written_of_handler (by simp [hready]) (by simp [hready]) hold hrow hbound).elim
    · obtain rfl := List.mem_singleton.mp hadded
      rw [hquery] at hrow hbound
      cases stage with
      | row =>
          have hsave : job.request.isSave = true ∧ job.request.blocks = true := by
            cases hrequest : job.request <;>
              simp_all [Job.query, Request.query, Query.isRow, Request.blocks, Request.isSave]
          exact ⟨hprotect, job, hjob.symm, hsave.1, Or.inl (by rw [hhandler, if_pos hsave.2])⟩
      | attribs pc => cases hrow
      | source id source left => cases hrow
  · rw [hhandler]
    split_ifs with hblocks
    · cases stage with
      | row =>
          refine ⟨?_, fun hfree ↦ ?_⟩
          · rw [hqueued, h.fresh job hready, writesOf_singleton, if_pos hjob, hquery, Job.query,
              query_row_written]
            exact List.Perm.refl _
          · rw [hprotect] at hfree
            cases hfree
      | attribs pc => trivial
      | source id source left =>
          have hprogress := h.progress
          rw [hready] at hprogress
          refine ⟨?_, hrowId hprogress.2 fun _ ↦ by rw [hquery]; rfl⟩
          rw [hqueued, writesOf_singleton, if_pos hjob, hquery, List.append_assoc]
          exact hprogress.1
    · trivial
  · intro v hv
    rw [hsaved] at hv
    have hlt := (hnumbered.earlier v hv).2 job hcurrent
    rw [hother (by omega)]
    exact ⟨(h.returned v hv).1, hrowId (h.returned v hv).2 fun hn ↦ by omega⟩

theorem executed (h : Saving s) (htook : s.worker = .took item)
    (hworker : s'.worker = .ran item result) (hlog : s'.log = s.log ++ [(item, result)])
    (hqueue : s'.queryQ = s.queryQ) (hhandler : s'.handler = s.handler)
    (hprotect : s'.protectFree = s.protectFree) (hid : s'.id = s.id)
    (hsaved : s'.saved = s.saved) : Saving s' := by
  have hqueued := queued_executed htook hworker hlog hqueue
  have hrow (n : ℕ) (id : ℤ) (h : RowId s n id) : RowId s' n id :=
    h.executed htook hworker hlog hqueue
  constructor
  · rw [hhandler]
    intro job hready
    rw [hqueued]
    exact h.fresh job hready
  · rw [hhandler, hprotect, hworker, hqueue]
    have hunsaved := h.unsaved
    rwa [htook] at hunsaved
  · rw [hhandler]
    apply Progress.congr h.progress (fun n ↦ hqueued n ▸ List.Perm.refl _) hrow
    intro job hor hfree
    rw [hprotect] at hfree
    rw [hid]
    exact hrow _ _ ((Progress.rowId h.progress hor).2 hfree)
  · intro v hv
    rw [hsaved] at hv
    rw [hqueued]
    exact ⟨(h.returned v hv).1, hrow _ _ (h.returned v hv).2⟩

/-- A callback or chain function runs. -/
theorem called (h : Saving s) (hnumbered : Numbered s) (hran : s.worker = .ran item result)
    (hworker : s'.worker = .called item) (hqueue : s'.queryQ = s.queryQ ++ item.chained result)
    (hlog : s'.log = s.log) (hhandler : s'.handler = s.handler)
    (hprotect : s'.protectFree = (s.call item result).protectFree)
    (hid : s'.id = (s.call item result).id) (hsaved : s'.saved = s.saved) : Saving s' := by
  have hqueued := queued_called hran hworker hlog hqueue
  have hrow (n : ℕ) (id : ℤ) (h : RowId s n id) : RowId s' n id :=
    h.called hran hworker hlog hqueue
  have hmem : item ∈ s.worker.unchained ++ s.queryQ := by
    rw [hran]
    exact List.mem_cons_self
  have howed : s'.owed = s.queryQ ++ item.chained result := by
    rw [State.owed, hworker, hqueue]
    rfl
  by_cases hunbound : item.query.isRow = true ∧ item.query.boundId = none
  · -- the row of the save that waits
    obtain ⟨hlocked, job, hjob, hsave, hwaits⟩ := h.unsaved item hmem hunbound.1 hunbound.2
    have hnew (hfree : s'.protectFree = true) : RowId s' job.number s'.id := by
      rw [hid]
      exact rowId_of_called hnumbered (Progress.rowId h.progress hwaits).1 hran hjob.symm hunbound.1
        hunbound.2 hlocked (hprotect ▸ hfree) hworker hqueue hlog
    have hsame (job' : Job) (hor : s.handler = .locked job' .row ∨ s.handler = .protect job') :
        job' = job := by
      rcases hor with h' | h' <;> rcases hwaits with hw | hw <;> rw [hw] at h' <;> cases h' <;> rfl
    constructor
    · rw [hhandler]
      intro job' hready
      rcases hwaits with hw | hw <;> rw [hw] at hready <;> cases hready
    · intro item' hitem hrow' hbound'
      rw [hworker, hqueue] at hitem
      have hjob' : item'.job = job.number := by
        rcases List.mem_append.mp hitem with hnil | hitem
        · exact absurd hnil List.not_mem_nil
        · rcases List.mem_append.mp hitem with hold | hadded
          · obtain ⟨-, job', hjob', -, hor⟩ :=
              h.unsaved item' (List.mem_append_right _ hold) hrow' hbound'
            rw [← hjob', hsame job' hor]
          · rw [(mem_chained hadded).2.2.1, hjob]
      refine ⟨?_, job, hjob'.symm, hsave, by rwa [hhandler]⟩
      by_contra hfree
      have hbound := (hnew (by simpa using hfree)).owed item' (howed ▸ hitem) hjob' hrow'
      rw [hbound'] at hbound
      cases hbound
    · rw [hhandler]
      apply Progress.congr h.progress hqueued hrow
      intro job' hor hfree
      rw [hsame job' hor]
      exact hnew hfree
    · intro v hv
      rw [hsaved] at hv
      exact ⟨(hqueued _).trans (h.returned v hv).1, hrow _ _ (h.returned v hv).2⟩
  · have hother : item.query.isRow = false ∨ item.query.boundId ≠ none := by
      rw [not_and_or] at hunbound
      exact hunbound.imp_left (by simp)
    obtain ⟨hid', hprotect'⟩ := call_protect_other s result hother
    constructor
    · rw [hhandler]
      intro job hready
      have hnil := h.fresh job hready
      have hperm := hqueued job.number
      rw [hnil] at hperm
      exact hperm.eq_nil
    · intro item' hitem hrow' hbound'
      rw [hworker, hqueue] at hitem
      rw [hprotect, hprotect', hhandler]
      rcases List.mem_append.mp hitem with hnil | hitem
      · exact absurd hnil List.not_mem_nil
      · rcases List.mem_append.mp hitem with hold | hadded
        · exact h.unsaved item' (List.mem_append_right _ hold) hrow' hbound'
        · have hchain := (mem_chained hadded).2.2.2.2
          have hwrite : item.query.isWrite = true := by
            by_contra hno
            have hnone := boundId_of_not_isWrite (by simpa using hno)
            rw [isRow_chain hchain] at hrow'
            exact hunbound ⟨hrow', hnone⟩
          rw [chained_of_isWrite hwrite] at hadded
          exact absurd hadded List.not_mem_nil
    · rw [hhandler]
      apply Progress.congr h.progress hqueued hrow
      intro job hor hfree
      rw [hprotect, hprotect'] at hfree
      rw [hid, hid']
      exact hrow _ _ ((Progress.rowId h.progress hor).2 hfree)
    · intro v hv
      rw [hsaved] at hv
      exact ⟨(hqueued _).trans (h.returned v hv).1, hrow _ _ (h.returned v hv).2⟩

theorem afterMutex_save {job : Job} {resp : Option Result} {next : Handler}
    (hsave : job.request.isSave = true) (hnext : job.afterMutex resp .row = some next) :
    next = .protect job := by
  cases hrequest : job.request <;> rw [hrequest] at hsave <;>
    simp only [Job.afterMutex, hrequest] at hnext <;>
    first | cases hnext; rfl | cases hsave

theorem afterProtect_ne_row {job job' : Job} (h : job.afterProtect id = .ready job' .row) :
    False := by
  unfold Job.afterProtect at h
  split at h
  · next sources _ =>
      split_ifs at h
      cases sources <;> cases h
  · cases h

theorem afterMutex_ne_row {job job' : Job} {resp : Option Result} {stage : Stage}
    (hnext : job.afterMutex resp stage = some (.ready job' .row)) : False := by
  cases stage with
  | row =>
      simp only [Job.afterMutex] at hnext
      split at hnext <;> try split_ifs at hnext
      all_goals cases hnext
  | attribs pc => cases hnext
  | source id source left => cases left <;> cases hnext

theorem step (h : Saving s) (hnumbered : Numbered s) (hfitting : Fitting collate s)
    (heffect : Effect collate s a s') : Saving s' := by
  cases heffect with
  | issue =>
      apply h.of_handler
      case hfresh => exact h.fresh
      case hunsaved => exact h.unsaved
      case hprogress => exact h.progress
      all_goals rfl
  | @take call rest hidle hqueue =>
      apply h.of_handler
      case hfresh =>
        -- the number is new
        intro job hready
        have hjob := start_job ⟨call, s.taken⟩
        simp only at hready
        rw [hready] at hjob
        obtain rfl := List.singleton_inj.mp hjob
        rw [State.queued, writesIn_eq_nil fun entry hentry ↦
          ne_of_lt (hnumbered.logged entry hentry),
          writesOf_eq_nil fun item hitem ↦
            ne_of_lt (hnumbered.flying item (owed_subset_inFlight hitem))]
        rfl
      case hunsaved =>
        intro item hitem hrow hbound
        exact (h.written_of_handler (by simp [hidle]) (by simp [hidle]) hitem hrow hbound).elim
      case hprogress =>
        simp only [Job.start]
        split_ifs <;> trivial
      all_goals rfl
  | @enqueue job stage hready =>
      apply h.enqueued hnumbered ⟨job.query stage, job.number, job.request.blocks, s.saved⟩ hready
      all_goals rfl
  | @pass job stage next hlocked hfree hnext =>
      have hprogress := progress_afterMutex h.progress hlocked hnext
      apply h.of_handler
      case hfresh =>
        intro job' hready
        simp only at hready
        rw [hready] at hnext
        exact (afterMutex_ne_row hnext).elim
      case hunsaved =>
        intro item hitem hrow hbound
        obtain ⟨hprotect, job', hjob', hsave, hor⟩ := h.unsaved item hitem hrow hbound
        refine ⟨hprotect, job', hjob', hsave, Or.inr ?_⟩
        rw [hlocked] at hor
        rcases hor with hor | hor
        · cases hor
          exact afterMutex_save hsave hnext
        · cases hor
      case hprogress => exact hprogress
      all_goals rfl
  | @passProtect job hprotect hfree =>
      have hsave : job.request.isSave = true := by
        simpa only [hprotect, Handler.Valid] using hfitting.handler
      obtain ⟨hqueued, hrow⟩ := Progress.rowId h.progress (Or.inr hprotect)
      apply h.of_handler
      case hfresh =>
        intro job' hready
        exact (afterProtect_ne_row hready).elim
      case hunsaved =>
        intro item hitem hisRow hbound
        have hlocked := (h.unsaved item hitem hisRow hbound).1
        rw [hfree] at hlocked
        cases hlocked
      case hprogress => exact progress_afterProtect hsave hqueued (hrow hfree)
      all_goals rfl
  | @respond job response hreturning =>
      have hold : Saving { s with handler := .idle } := by
        apply h.of_handler
        case hfresh =>
          intro job' hready
          cases hready
        case hunsaved =>
          intro item hitem hrow hbound
          exact (h.written_of_handler (by simp [hreturning]) (by simp [hreturning]) hitem hrow
            hbound).elim
        case hprogress => trivial
        all_goals rfl
      refine ⟨hold.fresh, hold.unsaved, trivial, fun v hv ↦ ?_⟩
      rcases List.mem_append.mp hv with hv | hnew
      · exact ⟨(h.returned v hv).1, (h.returned v hv).2.congr rfl rfl⟩
      · cases response with
        | saved id =>
            obtain rfl := List.mem_singleton.mp hnew
            have hprogress := h.progress
            rw [hreturning] at hprogress
            exact ⟨hprogress.1, hprogress.2.congr rfl rfl⟩
        | _ => exact absurd hnew List.not_mem_nil
  | @dequeue item rest hidle hqueue =>
      apply h.of_handler
      case howed =>
        rw [State.owed, State.owed, hidle, hqueue]
        rfl
      case hfresh => exact h.fresh
      case hunsaved =>
        have hunsaved := h.unsaved
        rw [hidle, hqueue] at hunsaved
        exact hunsaved
      case hprogress => exact h.progress
      all_goals rfl
  | @query item db result htook hrun =>
      apply h.executed htook
      all_goals rfl
  | @call item result hran =>
      have hcall := call_eq s item result
      obtain ⟨id, protectFree, resp, hcall⟩ := hcall
      apply h.called hnumbered hran
      case hqueue => rw [hcall]
      case hlog => rw [hcall]
      case hhandler => rw [hcall]
      case hsaved => rw [hcall]
      all_goals rfl
  | @unlock item hcalled =>
      apply h.of_handler
      case howed =>
        rw [State.owed, State.owed, hcalled]
        rfl
      case hfresh => exact h.fresh
      case hunsaved =>
        have hunsaved := h.unsaved
        rw [hcalled] at hunsaved
        exact hunsaved
      case hprogress => exact h.progress
      all_goals rfl

end Saving

end HavokMud.Mysql
