import HavokMud.Login.Copies
import Mathlib.Data.List.Nodup

/-!
# Interleaved parties

Whatever the order of the steps, every party stays on its way: what it saves comes from a row it has
seen or is new.  Only a save changes the table of accounts.
-/

namespace HavokMud.Login

open Interaction BTree Mysql

/-! ## Writing a row -/

/-- The table after `db_mysql_save_account`, and the id of its response. -/
def written (db : Database) (row : Account) : Database × ℤ :=
  if ∃ old ∈ db.accounts, old.id = row.id then
    ({ db with accounts := db.accounts.map fun old ↦ if old.id = row.id then row else old }, row.id)
  else
    ({ db with
      accounts := db.accounts ++ [{ row with id := db.nextAccount }]
      nextAccount := db.nextAccount + 1 }, db.nextAccount)

section Server

variable (collate : Text → Text)

theorem saveAccount_eq (db : Database) (row : Account) :
    saveAccount collate db row = some (written db row) := by
  have hcount : (db.accounts.filter fun old ↦ old.id = row.id).length ≠ 0 ↔
      ∃ old ∈ db.accounts, old.id = row.id := by
    rw [← Nat.pos_iff_ne_zero, List.length_pos_iff_exists_mem]
    simp
  unfold saveAccount written
  simp only [execute, Option.bind_some, Query.chain, Result.count, hcount]
  split_ifs with hfound <;> rfl

theorem firstAccount_loadAccount (db : Database) (email : Text) :
    firstAccount collate db (.loadAccount email) =
      db.accounts.find? fun row ↦ collate row.email = collate email := by
  unfold firstAccount
  simp only [execute, List.head?_filter]

theorem firstAccount_loadAccountByConfirm (db : Database) (code : Text) :
    firstAccount collate db (.loadAccountByConfirm code) =
      db.accounts.find? fun row ↦ collate row.confcode = collate code := by
  unfold firstAccount
  simp only [execute, List.head?_filter]

end Server

theorem written_snd_pos {db : Database} (h : Numbered db) (row : Account) :
    0 < (written db row).2 := by
  unfold written
  split_ifs with hfound
  · obtain ⟨old, hold, heq⟩ := hfound
    rw [← heq]
    exact (h.positive old hold).1
  · exact h.next

theorem Numbered.written {db : Database} (h : Numbered db) (row : Account) :
    Numbered (written db row).1 := by
  unfold Login.written
  split_ifs with hfound
  · have hid : ∀ old : Account, (if old.id = row.id then row else old).id = old.id := by
      intro old
      split_ifs with heq
      · exact heq.symm
      · rfl
    refine ⟨?_, ?_, h.next⟩
    · rw [List.pairwise_map]
      simpa only [hid] using h.distinct
    · intro row' hrow'
      obtain ⟨old, hold, rfl⟩ := List.mem_map.mp hrow'
      rw [hid]
      exact h.positive old hold
  · refine ⟨?_, ?_, by linarith [h.next]⟩
    · apply List.pairwise_append.mpr
      refine ⟨h.distinct, List.pairwise_singleton _ _, ?_⟩
      intro old hold new hnew
      rw [List.mem_singleton.mp hnew]
      exact (h.positive old hold).2.ne
    · intro row' hrow'
      rcases List.mem_append.mp hrow' with hold | hnew
      · have hpositive := h.positive row' hold
        exact ⟨hpositive.1, by linarith [hpositive.2]⟩
      · rw [List.mem_singleton.mp hnew]
        exact ⟨h.next, by linarith⟩

/-- A row is the account that it was, or the written one under its id, or a new one. -/
theorem mem_written {db : Database} {row row' : Account} (h : row' ∈ (written db row).1.accounts) :
    row' ∈ db.accounts ∨ (row' = row ∧ ∃ old ∈ db.accounts, old.id = row.id) ∨
      (row' = { row with id := db.nextAccount } ∧ ∀ old ∈ db.accounts, old.id ≠ row.id) := by
  unfold written at h
  split_ifs at h with hfound
  · obtain ⟨old, hold, heq⟩ := List.mem_map.mp h
    split_ifs at heq with hid
    · exact .inr (.inl ⟨heq.symm, hfound⟩)
    · rw [heq] at hold
      exact .inl hold
  · rcases List.mem_append.mp h with hold | hnew
    · exact .inl hold
    · exact .inr (.inr ⟨List.mem_singleton.mp hnew, fun old hold heq ↦ hfound ⟨old, hold, heq⟩⟩)

/-! ## What a step can do -/

theorem System.set_self (s : System) (p : ℕ) (party : Party) :
    (s.set p party).parties p = party := by
  change Function.update s.parties p party p = party
  rw [Function.update_self]

theorem System.set_of_ne (s : System) (party : Party) {p q : ℕ} (h : q ≠ p) :
    (s.set p party).parties q = s.parties q := by
  change Function.update s.parties p party q = s.parties q
  rw [Function.update_of_ne h]

/-- What a party without a player starts. -/
inductive Starts (env : Environment) : Request → Dialog (Option Player) → Prop
  | connect : Starts env .idle (pure (some .create))
  | login (email passwd : Option Text) :
      Starts env .login (webServiceLogin env email passwd >>= fun _ ↦ pure none)
  | register (now : ℕ) (email passwd : Option Text) :
      Starts env .register (webServiceRegister env now email passwd >>= fun _ ↦ pure none)
  | confirm (code : Option Text) :
      Starts env (.confirm code) (webServiceConfirm code >>= fun _ ↦ pure none)

section Steps

variable {collate : Text → Text} {env : Environment} {s s' : System} {event : Event}

theorem start_cases {p : ℕ} {request : Request} {dialog : Dialog (Option Player)}
    (h : s.start p request dialog = some s') :
    (s.parties p).dialog = .done none ∧ s' = s.set p ⟨⟨request, .nothing⟩, dialog⟩ := by
  unfold System.start at h
  split at h
  · next hidle => exact ⟨hidle, (Option.some.inj h).symm⟩
  · cases h

theorem step_cases (h : s.step collate env event = some s') :
    (∃ p request dialog, Starts env request dialog ∧ (s.parties p).dialog = .done none ∧
      s' = s.set p ⟨⟨request, .nothing⟩, dialog⟩) ∨
    (∃ p moment line player, event = .line p moment line ∧
      (s.parties p).dialog = .done (some player) ∧
      s' = s.set p ⟨(s.parties p).view.serve player line,
        loginStateMachine env moment player line >>= fun player ↦ pure (some player)⟩) ∨
    (∃ p pc op next, event = .call p pc ∧ (s.parties p).dialog = .ask op next ∧
      ((answer collate s.db pc op = none ∧ s' = s.set p ⟨(s.parties p).view, .fault⟩) ∨
        ∃ db ans, answer collate s.db pc op = some (db, ans) ∧
          s' = { s.set p ⟨(s.parties p).view.next op ans, next ans⟩ with db := db })) := by
  cases event with
  | connect p => exact .inl ⟨p, _, _, .connect, start_cases h⟩
  | line p moment line =>
      unfold System.step at h
      dsimp only at h
      split at h
      · next player hidle =>
          exact .inr (.inl ⟨p, moment, line, player, rfl, hidle, (Option.some.inj h).symm⟩)
      · cases h
  | login p email passwd => exact .inl ⟨p, _, _, .login email passwd, start_cases h⟩
  | register p now email passwd => exact .inl ⟨p, _, _, .register now email passwd, start_cases h⟩
  | confirm p code => exact .inl ⟨p, _, _, .confirm code, start_cases h⟩
  | call p pc =>
      unfold System.step at h
      dsimp only at h
      split at h
      · next op next hask =>
          refine .inr (.inr ⟨p, pc, op, next, rfl, hask, ?_⟩)
          split at h
          · next hrefused => exact .inl ⟨hrefused, (Option.some.inj h).symm⟩
          · next db ans hanswer => exact .inr ⟨db, ans, hanswer, (Option.some.inj h).symm⟩
      · cases h

/-- Only a save changes the tables. -/
theorem step_db (h : s.step collate env event = some s') :
    s'.db = s.db ∨ ∃ p pc account next row, event = .call p pc ∧
      (s.parties p).dialog = .ask (.saveAccount account) next ∧ account.row = some row ∧
      s'.db = (written s.db row).1 ∧
      (s'.parties p).view.seen = .row { row with id := (written s.db row).2 } := by
  rcases step_cases h with ⟨p, request, dialog, -, -, rfl⟩ | ⟨p, moment, line, player, -, -, rfl⟩ |
    ⟨p, pc, op, next, rfl, hask, ⟨-, rfl⟩ | ⟨db, ans, hanswer, rfl⟩⟩
  · exact .inl rfl
  · exact .inl rfl
  · exact .inl rfl
  · cases op with
    | saveAccount account =>
        obtain ⟨row, hrow, hsave⟩ := Option.bind_eq_some_iff.mp hanswer
        rw [saveAccount_eq] at hsave
        have hpair := Option.some.inj hsave
        obtain rfl : (written s.db row).1 = db := by rw [hpair]
        obtain rfl : (written s.db row).2 = ans := by rw [hpair]
        refine .inr ⟨p, pc, account, next, row, rfl, hask, hrow, rfl, ?_⟩
        change ((s.set p _).parties p).view.seen = _
        rw [System.set_self, next_saveAccount _ hrow]
    | loadAccount email => exact .inl (Prod.mk.inj (Option.some.inj hanswer)).1.symm
    | loadAccountByConfirm code => exact .inl (Prod.mk.inj (Option.some.inj hanswer)).1.symm
    | findPc name => exact .inl (Prod.mk.inj (Option.some.inj hanswer)).1.symm

end Steps

/-! ## All parties stay on their way -/

section Invariant

variable (found : Text → Account → Prop)

/-- What a party will save is as it should be, and a session will be settled. -/
def Party.OnWay (party : Party) : Prop :=
  Runs found (fun view result ↦
    ∀ player ∈ result, SettledPlayer view player ∧ view.request ≠ .login)
    party.view party.dialog

/-- The table is numbered, and every party is on its way. -/
structure Inv (s : System) : Prop where
  numbered : Numbered s.db
  parties : ∀ p, (s.parties p).OnWay found

variable {found} {collate : Text → Text} {env : Environment} {s s' : System} {event : Event}

theorem inv_create {db : Database} (h : Numbered db) : Inv found (System.create db) := by
  refine ⟨h, ?_⟩
  intro p player hplayer
  cases hplayer

theorem Starts.onWay {request : Request} {dialog : Dialog (Option Player)}
    (h : Starts env request dialog) : Party.OnWay found ⟨⟨request, .nothing⟩, dialog⟩ := by
  have hdone : ∀ view : View, ∀ player ∈ (none : Option Player),
      SettledPlayer view player ∧ view.request ≠ .login := by
    intro view player hplayer
    cases hplayer
  unfold Party.OnWay
  cases h with
  | connect =>
      intro player hplayer
      obtain rfl := Option.some.inj hplayer
      exact ⟨settled_anonymous rfl, Request.noConfusion⟩
  | login email passwd =>
      apply Program.Along.bind
      exact Program.Along.mono (runs_webServiceLogin env email passwd) fun view _ _ ↦ hdone view
  | register now email passwd =>
      apply Program.Along.bind
      exact Program.Along.mono (runs_webServiceRegister env now email passwd rfl)
        fun view _ _ ↦ hdone view
  | confirm code =>
      apply Program.Along.bind
      exact Program.Along.mono (runs_webServiceConfirm code rfl) fun view _ _ ↦ hdone view

variable (env) in
/-- A session that got a line. -/
theorem onWay_line (hfound : ∀ code row, code ≠ [] → fold code = fold row.confcode → found code row)
    {party : Party} {player : Player} (h : party.OnWay found)
    (hidle : party.dialog = .done (some player)) (moment : Moment) (line : Option Text) :
    Party.OnWay found ⟨party.view.serve player line,
      loginStateMachine env moment player line >>= fun player ↦ pure (some player)⟩ := by
  unfold Party.OnWay at h ⊢
  rw [hidle] at h
  apply Program.Along.bind
  apply Program.Along.mono (runs_loginStateMachine env moment hfound (h player rfl).1).request
  rintro view' player' ⟨hsettled, hrequest⟩ _ hplayer
  obtain rfl := Option.some.inj hplayer
  refine ⟨hsettled, ?_⟩
  rw [hrequest]
  exact Request.noConfusion

/-- The answers of the database are admitted. -/
theorem admits_answer (h : Numbered s.db) {pc : Option Found} {op : Op} {db : Database}
    {ans : op.Ans}
    (hcode : ∀ code, op = .loadAccountByConfirm code →
      ∀ row ∈ firstAccount collate s.db (.loadAccountByConfirm code), found code row)
    (hanswer : answer collate s.db pc op = some (db, ans)) : Admits found op ans := by
  have hne : ∀ row ∈ s.db.accounts, row.id ≠ 0 := fun row hrow ↦ (h.positive row hrow).1.ne'
  cases op with
  | loadAccount email =>
      obtain ⟨-, rfl⟩ := Prod.mk.inj (Option.some.inj hanswer)
      intro row hrow
      rw [firstAccount_loadAccount] at hrow
      exact hne row (List.mem_of_find?_eq_some hrow)
  | loadAccountByConfirm code =>
      obtain ⟨-, rfl⟩ := Prod.mk.inj (Option.some.inj hanswer)
      intro row hrow
      have hfirst := hcode code rfl row hrow
      rw [firstAccount_loadAccountByConfirm] at hrow
      exact ⟨hne row (List.mem_of_find?_eq_some hrow), hfirst⟩
  | saveAccount account =>
      obtain ⟨row, hrow, hsave⟩ := Option.bind_eq_some_iff.mp hanswer
      rw [saveAccount_eq] at hsave
      obtain ⟨-, rfl⟩ := Prod.mk.inj (Option.some.inj hsave)
      refine ⟨(written_snd_pos h row).ne', ?_⟩
      rw [hrow]
      exact Option.some_ne_none row
  | findPc name => trivial

/-- A step keeps the invariant, if an account that is found by its code is as it should be. -/
theorem Inv.step (hfound : ∀ code row, code ≠ [] → fold code = fold row.confcode → found code row)
    (h : Inv found s)
    (hcode : ∀ p pc code, event = .call p pc →
      (s.parties p).asks = some (.loadAccountByConfirm code) →
        ∀ row ∈ firstAccount collate s.db (.loadAccountByConfirm code), found code row)
    (hstep : s.step collate env event = some s') : Inv found s' := by
  have hset : ∀ {p : ℕ} {party : Party}, party.OnWay found →
      ∀ q, ((s.set p party).parties q).OnWay found := by
    intro p party hparty q
    rcases eq_or_ne q p with rfl | hq
    · rw [System.set_self]
      exact hparty
    · rw [System.set_of_ne s party hq]
      exact h.parties q
  have hnumbered : Numbered s'.db := by
    rcases step_db hstep with hdb | ⟨-, -, -, -, row, -, -, -, hdb, -⟩
    · rw [hdb]
      exact h.numbered
    · rw [hdb]
      exact h.numbered.written row
  refine ⟨hnumbered, ?_⟩
  rcases step_cases hstep with ⟨p, request, dialog, hstarts, -, rfl⟩ |
    ⟨p, moment, line, player, -, hidle, rfl⟩ |
    ⟨p, pc, op, next, rfl, hask, ⟨-, rfl⟩ | ⟨db, ans, hanswer, rfl⟩⟩
  · exact hset hstarts.onWay
  · exact hset (onWay_line env hfound (h.parties p) hidle moment line)
  · exact hset trivial
  · have hparty := h.parties p
    unfold Party.OnWay at hparty
    rw [hask] at hparty
    refine hset (hparty.2 ans (admits_answer h.numbered ?_ hanswer))
    rintro code rfl
    apply hcode p pc code rfl
    rw [Party.asks, hask]

theorem Numbered.eq_of_id {db : Database} (h : Numbered db) {row row' : Account}
    (hrow : row ∈ db.accounts) (hrow' : row' ∈ db.accounts) (hid : row'.id = row.id) :
    row' = row := by
  have hnodup : (db.accounts.map Account.id).Nodup := List.pairwise_map.mpr h.distinct
  exact List.inj_on_of_nodup_map hnodup hrow' hrow hid

theorem row_fields {account : PlayerAccount} {row : Account} (h : account.row = some row) :
    row.id = account.id ∧ some row.email = account.email ∧ row.confirmed = account.confirmed ∧
      row.confcode = account.confcode := by
  obtain ⟨email, hemail, h⟩ := Option.bind_eq_some_iff.mp h
  obtain ⟨passwd, -, rfl⟩ := Option.map_eq_some_iff.mp h
  exact ⟨rfl, hemail.symm, rfl, rfl⟩

/-- What a step makes of a row: nothing, or the copy of a party that has seen it. -/
theorem Inv.row_step (h : Inv found s) (hstep : s.step collate env event = some s')
    {row row' : Account} (hrow : row ∈ s.db.accounts) (hrow' : row' ∈ s'.db.accounts)
    (hid : row'.id = row.id) :
    row' = row ∨ ∃ p pc account old, event = .call p pc ∧
      (s.parties p).asks = some (.saveAccount account) ∧ account.row = some row' ∧
      CopyOf (s.parties p).view.seen account old ∧
      FlagKept found (s.parties p).view.request old account := by
  rcases step_db hstep with hdb | ⟨p, pc, account, next, new, rfl, hask, hnew, hdb, -⟩
  · rw [hdb] at hrow'
    exact .inl (h.numbered.eq_of_id hrow hrow' hid)
  rw [hdb] at hrow'
  have hpositive := h.numbered.positive row hrow
  rcases mem_written hrow' with hold | ⟨rfl, -⟩ | ⟨rfl, -⟩
  · exact .inl (h.numbered.eq_of_id hrow hold hid)
  · have hparty := h.parties p
    unfold Party.OnWay at hparty
    rw [hask] at hparty
    have hasks : (s.parties p).asks = some (.saveAccount account) := by rw [Party.asks, hask]
    rcases hparty.1 with ⟨hfresh, -⟩ | ⟨old, hcopy, hflag⟩
    · -- a new account has no id
      have hzero := (row_fields hnew).1.trans hfresh.id
      omega
    · exact .inr ⟨p, pc, account, old, rfl, hasks, hnew, hcopy, hflag⟩
  · dsimp only at hid
    omega

end Invariant

end HavokMud.Login
