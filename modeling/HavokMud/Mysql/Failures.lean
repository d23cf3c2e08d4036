import HavokMud.Mysql.Completion
import Mathlib.Data.List.Monad

/-!
# Queries that fail

When `db_query` fails it returns NULL and does not write `insertid`.  What `MysqlThread` then does
depends on the insert id of the last query that was executed, and what the waiting call returns
depends on a variable that the call did not initialise.
-/

namespace HavokMud.Mysql.Completion

/-! ## Failed queries in `MysqlThread` -/

theorem Outcome.rows_of_failed {outcome : Outcome} (hfailed : outcome.failed) :
    outcome.rows = none := by
  cases outcome <;> simp_all [Outcome.failed, Outcome.rows]

theorem Outcome.insertidAfter_of_failed {outcome : Outcome} (hfailed : outcome.failed)
    (insertid : ℤ) : outcome.insertidAfter insertid = insertid := by
  cases outcome <;> simp_all [Outcome.failed, Outcome.insertidAfter]

/-- After a failure only the old insert id is left to answer for the query. -/
theorem State.answers_of_failed (s : State) {outcome : Outcome} (hfailed : outcome.failed) :
    s.answers outcome = decide (s.insertid ≠ 0) := by
  unfold State.answers
  rw [Outcome.rows_of_failed hfailed, Outcome.insertidAfter_of_failed hfailed]
  simp

/-- The insert id of the last query that was executed. -/
def lastInsertid (insertid : ℤ) (actions : List Action) : ℤ :=
  actions.foldl
    (fun insertid a ↦
      match a with
      | .queue _ _ _ => insertid
      | .complete outcome => outcome.insertidAfter insertid)
    insertid

theorem insertid_step {s s' : State} {a : Action} (hstep : step s a = some s') :
    s'.insertid = lastInsertid s.insertid [a] := by
  cases a with
  | queue callback chain args =>
      obtain rfl := Option.some.inj hstep
      cases args <;> rfl
  | complete outcome =>
      cases hqueue : s.queue with
      | nil => simp [step, hqueue] at hstep
      | cons item rest =>
          simp only [step, hqueue, Option.some.injEq] at hstep
          subst hstep
          rfl

theorem insertid_run {actions : List Action} {s s' : State}
    (hrun : actions.foldlM step s = some s') : s'.insertid = lastInsertid s.insertid actions := by
  induction actions generalizing s with
  | nil =>
      obtain rfl := Option.some.inj hrun
      rfl
  | cons a actions ih =>
      rw [List.foldlM_cons] at hrun
      obtain ⟨middle, hmiddle, hrest⟩ := Option.bind_eq_some_iff.mp hrun
      calc s'.insertid = lastInsertid middle.insertid actions := ih hrest
        _ = lastInsertid (lastInsertid s.insertid [a]) actions := by rw [insertid_step hmiddle]
        _ = lastInsertid s.insertid (a :: actions) := rfl

/-! ## The waiting calls -/

/-- What a `db_mysql_*` call gets from a query that failed. -/
inductive Reply
  /-- No call waits for the query. -/
  | nobody
  | response (pointer : Option ℕ)
  /-- The call goes on and builds a response. -/
  | created
  /-- The call waits on for the protected id. -/
  | blocked
  /-- NULL, or a pointer that was never set, is dereferenced. -/
  | fault
deriving DecidableEq

/-- The reply to the call that waits for a failed query, whose variable `resp` holds `slot` when it
queues the query.  A callback that runs has no result to count the rows of. -/
def State.reply (s : State) (item : Item) (outcome : Outcome) (slot : Option ℕ) : Reply :=
  match item.callback with
  | some .getSetting => .response (if s.answers outcome then none else slot)
  | some .loadAccount | some .getPcList | some .loadPcAttribs | some .findPc =>
      if s.answers outcome then .fault else .response slot
  | some .loadPc => .fault
  | some .insertId => if s.answers outcome then .created else .blocked
  | none =>
      match item.chain with
      | none | some .setSetting => .nobody
      | some .saveAccount | some .savePc => .blocked
      | some .savePcAttribs => .created

/-- A failed query without effect: no function of it runs, nothing is queued for it, and the call
that waits for it returns NULL. -/
structure Harmless (s : State) (item : Item) (rest : List Item) (outcome : Outcome)
    (slot : Option ℕ) : Prop where
  callback : s.calledBack item outcome = none
  chain : s.chained item outcome = none
  queue : (s.complete item rest outcome).queue = rest
  reply : s.reply item outcome slot = .nobody ∨ s.reply item outcome slot = .response none

/-- The calls that return their variable as it is. -/
def Callback.ReturnsSlot : Callback → Prop
  | .getSetting | .loadAccount | .getPcList | .loadPcAttribs | .findPc => True
  | .loadPc | .insertId => False

/-- The query has no function at all; or the last query that was executed had no insert id and this
one is the `SELECT` of `db_mysql_set_setting`, or a load whose variable happens to be NULL. -/
def Spared (insertid : ℤ) (item : Item) (slot : Option ℕ) : Prop :=
  (item.callback = none ∧ item.chain = none) ∨
    insertid = 0 ∧
      ((item.callback = none ∧ item.chain = some .setSetting) ∨
        ∃ callback, item.callback = some callback ∧ callback.ReturnsSlot ∧ slot = none)

theorem State.harmless_of_insertid {s : State} (hinsertid : s.insertid = 0) {item : Item}
    {rest : List Item} {outcome : Outcome} (hfailed : outcome.failed) {slot : Option ℕ} :
    Harmless s item rest outcome slot ↔
      s.reply item outcome slot = .nobody ∨ s.reply item outcome slot = .response none := by
  have hanswers : s.answers outcome = false := by
    rw [s.answers_of_failed hfailed, hinsertid]
    rfl
  constructor
  · exact Harmless.reply
  · intro hreply
    exact
      { callback := by simp [State.calledBack, hanswers]
        chain := by simp [State.chained, hanswers]
        queue := by simp [State.complete, State.chained, hanswers]
        reply := hreply }

/-- What the replies are when no function runs. -/
theorem State.reply_of_insertid {s : State} (hinsertid : s.insertid = 0) {item : Item}
    {outcome : Outcome} (hfailed : outcome.failed) {slot : Option ℕ} :
    (s.reply item outcome slot = .nobody ∨ s.reply item outcome slot = .response none) ↔
      Spared 0 item slot := by
  have hanswers : s.answers outcome = false := by
    rw [s.answers_of_failed hfailed, hinsertid]
    rfl
  unfold State.reply Spared
  rw [hanswers]
  cases hcallback : item.callback with
  | some callback => cases callback <;> simp [Callback.ReturnsSlot]
  | none =>
      cases hchain : item.chain with
      | none => simp
      | some chain => cases chain <;> simp

/-- With an old insert id a failed query is without effect only if it has no function. -/
theorem State.harmless_of_ne {s : State} (hinsertid : s.insertid ≠ 0) {item : Item}
    {rest : List Item} {outcome : Outcome} (hfailed : outcome.failed) {slot : Option ℕ} :
    Harmless s item rest outcome slot ↔ item.callback = none ∧ item.chain = none := by
  have hanswers : s.answers outcome = true := by
    rw [s.answers_of_failed hfailed]
    exact decide_eq_true hinsertid
  constructor
  · intro h
    have hcallback := h.callback
    have hchain := h.chain
    unfold State.calledBack at hcallback
    unfold State.chained at hchain
    rw [if_pos hanswers] at hcallback
    rw [if_pos ⟨hanswers, hcallback⟩] at hchain
    exact ⟨hcallback, hchain⟩
  · rintro ⟨hcallback, hchain⟩
    have hchained : s.chained item outcome = none := by
      simp [State.chained, hchain]
    exact
      { callback := by simp [State.calledBack, hcallback]
        chain := hchained
        queue := by simp [State.complete, hchained]
        reply := by simp [State.reply, hcallback, hchain] }

/-- Behind any history of queued and completed queries, a query that fails is without effect exactly
if it is spared. -/
theorem failed_harmless_iff {insertid : ℤ} {actions : List Action} {s : State}
    (hrun : actions.foldlM step (.initial insertid) = some s) {item : Item} {rest : List Item}
    (hqueue : s.queue = item :: rest) {outcome : Outcome} (hfailed : outcome.failed)
    (slot : Option ℕ) :
    step s (.complete outcome) = some (s.complete item rest outcome) ∧
      (Harmless s item rest outcome slot ↔ Spared (lastInsertid insertid actions) item slot) := by
  have hlast : s.insertid = lastInsertid insertid actions := insertid_run hrun
  constructor
  · simp only [step, hqueue]
  rw [← hlast]
  by_cases hinsertid : s.insertid = 0
  · rw [s.harmless_of_insertid hinsertid hfailed, s.reply_of_insertid hinsertid hfailed, hinsertid]
  · rw [s.harmless_of_ne hinsertid hfailed]
    simp [Spared, hinsertid]

/-- `db_mysql_get_setting` as the first query, with a variable that happens to be NULL. -/
theorem failed_get_setting_harmless :
    Harmless ((State.initial 0).queueQuery (some .getSetting) none (some [false]))
      ⟨some .getSetting, none, some 0, 1⟩ [] .error none := by
  have hrun : [Action.queue (some .getSetting) none (some [false])].foldlM step (.initial 0) =
      some ((State.initial 0).queueQuery (some .getSetting) none (some [false])) := rfl
  apply (failed_harmless_iff hrun rfl rfl none).2.mpr
  exact .inr ⟨rfl, .inr ⟨.getSetting, rfl, trivial, rfl⟩⟩

/-- The arguments of `db_mysql_save_account`, of which the last counts as NULL. -/
def accountArgs : List Bool :=
  [false, false, false, false, false, false, true]

/-- A new account is saved, and the `SELECT` of the next save fails: the chain function runs and
queues another `INSERT`. -/
theorem failed_save_account_inserts :
    ∃ s, [Action.queue none (some .saveAccount) (some accountArgs),
        .complete (.stored (some 0) 0), .complete (.stored none 1),
        .queue none (some .saveAccount) (some accountArgs)].foldlM step (.initial 0) = some s ∧
      ∃ item, s.queue = [item] ∧
        (s.complete item [] .error).queue = [⟨some .insertId, none, some 1, 5⟩] ∧
          ∀ slot, ¬ Harmless s item [] .error slot := by
  refine ⟨_, rfl, ⟨none, some .saveAccount, some 1, 7⟩, rfl, rfl, ?_⟩
  intro slot h
  have hchain := h.chain
  revert hchain
  decide

end HavokMud.Mysql.Completion
