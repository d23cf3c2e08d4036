import HavokMud.Login.Sessions

/-!
# Authentication

Behind the passwords a session has an account for which a password was entered: the stored one of an
account that was loaded, or twice the same one for an account that is created.
-/

namespace HavokMud.Login

open Interaction BTree Mysql

/-! ## What was entered -/

/-- The states in which the password of the account was entered. -/
def PlayerState.authenticated : PlayerState → Bool
  | .initial | .getEmail | .confirmEmail | .getNewUserPassword | .confirmPassword | .getPassword
  | .disconnect => false
  | _ => true

/-- What the last `pb_load_account` gave. -/
def LastLoad (past : List Entry) (email : Text) (row : Option Account) : Prop :=
  ∃ later entry earlier, past = later ++ entry :: earlier ∧ entry.player.state = .getEmail ∧
    entry.calls = [⟨.loadAccount email, row⟩] ∧
    ∀ other ∈ later, ∀ call ∈ other.calls, call.1.loads = false

section Authentication

variable (env : Environment)

/-- The account was loaded, and its password entered. -/
def LoggedIn (past : List Entry) (account : PlayerAccount) : Prop :=
  ∃ recent answered older email row line, past = recent ++ answered :: older ∧
    LastLoad past email (some row) ∧ LastLoad older email (some row) ∧
    answered.player.state = .getPassword ∧ answered.player.account = some (.ofRow row) ∧
    skipSpaces answered.line = some line ∧
    row.passwd.take 32 = env.md5Password row.email line ∧ account.email = some row.email

/-- The account was created, and the same password entered twice. -/
def Registered (past : List Entry) (account : PlayerAccount) : Prop :=
  ∃ recent second first older email line line', past = recent ++ second :: first :: older ∧
    LastLoad past email none ∧ LastLoad older email none ∧
    first.player.state = .getNewUserPassword ∧ second.player.state = .confirmPassword ∧
    skipSpaces first.line = some line ∧ skipSpaces second.line = some line' ∧
    env.md5Password email line' = env.md5Password email line ∧ account.email = some email

/-- The session creates an account. -/
def Creating (past : List Entry) (player : Player) (email : Text) : Prop :=
  LastLoad past email none ∧ ∃ account, player.account = some account ∧ account.email = some email

/-- What is known in each state. -/
def Known (past : List Entry) (player : Player) : Prop :=
  match player.state with
  | .initial | .getEmail | .disconnect => True
  | .getPassword => ∃ email row, LastLoad past email (some row) ∧ player.account = some (.ofRow row)
  | .confirmEmail | .getNewUserPassword => ∃ email, Creating past player email
  | .confirmPassword => ∃ first older email line account, past = first :: older ∧
      LastLoad past email none ∧ LastLoad older email none ∧
      first.player.state = .getNewUserPassword ∧ skipSpaces first.line = some line ∧
      player.account = some account ∧ account.email = some email ∧
      account.pwd = some (env.md5Password email line)
  | _ => ∃ account, player.account = some account ∧
      (LoggedIn env past account ∨ Registered env past account)

variable {env} {past : List Entry} {player player' : Player}

theorem LastLoad.cons {email : Text} {row : Option Account} {entry : Entry}
    (h : LastLoad past email row) (hentry : ∀ call ∈ entry.calls, call.1.loads = false) :
    LastLoad (entry :: past) email row := by
  obtain ⟨later, loaded, earlier, rfl, hstate, hcalls, hlater⟩ := h
  exact ⟨entry :: later, loaded, earlier, rfl, hstate, hcalls,
    List.forall_mem_cons.mpr ⟨hentry, hlater⟩⟩

theorem LoggedIn.cons {entry : Entry} {account account' : PlayerAccount}
    (h : LoggedIn env past account) (hentry : ∀ call ∈ entry.calls, call.1.loads = false)
    (hemail : account'.email = account.email) : LoggedIn env (entry :: past) account' := by
  obtain ⟨recent, answered, older, email, row, line, rfl, hload, hfacts⟩ := h
  refine ⟨entry :: recent, answered, older, email, row, line, rfl, hload.cons hentry, ?_⟩
  rwa [hemail]

theorem Registered.cons {entry : Entry} {account account' : PlayerAccount}
    (h : Registered env past account) (hentry : ∀ call ∈ entry.calls, call.1.loads = false)
    (hemail : account'.email = account.email) : Registered env (entry :: past) account' := by
  obtain ⟨recent, second, first, older, email, line, line', rfl, hload, hfacts⟩ := h
  refine ⟨entry :: recent, second, first, older, email, line, line', rfl, hload.cons hentry, ?_⟩
  rwa [hemail]

theorem known_authenticated (hstate : player.state.authenticated = true) :
    Known env past player ↔ ∃ account, player.account = some account ∧
      (LoggedIn env past account ∨ Registered env past account) := by
  unfold Known
  cases h : player.state <;> first
    | rfl
    | rw [h] at hstate
      cases hstate

theorem authenticated_of_inMenu {state : PlayerState} (h : state.inMenu = true) :
    state.authenticated = true := by
  cases state <;> first | rfl | cases h

theorem authenticated_of_inCreation {state : PlayerState} (h : state.inCreation = true) :
    state.authenticated = true := by
  cases state <;> first | rfl | cases h

/-- Once a password was entered, the account stays that of the password. -/
theorem Known.stays {entry : Entry} (h : Known env past player)
    (hstate : player.state.authenticated = true) (hstate' : player'.state.authenticated = true)
    (hentry : ∀ call ∈ entry.calls, call.1.loads = false)
    (hemail : player'.account.map PlayerAccount.email = player.account.map PlayerAccount.email) :
    Known env (entry :: past) player' := by
  rw [known_authenticated hstate] at h
  rw [known_authenticated hstate']
  obtain ⟨account, haccount, h⟩ := h
  rw [haccount, Option.map_some] at hemail
  obtain ⟨account', haccount', hemail⟩ := Option.map_eq_some_iff.mp hemail
  refine ⟨account', haccount', ?_⟩
  rcases h with hlogged | hregistered
  · exact .inl (hlogged.cons hentry hemail)
  · exact .inr (hregistered.cons hentry hemail)

variable (hlength : ∀ email passwd, (env.md5Password email passwd).length = 32)

include hlength in
/-- The digits of a line that agrees with a stored password. -/
theorem Agrees.digits {account : PlayerAccount} {line email pwd : Text}
    (h : Agrees env account line account.pwd) (hemail : account.email = some email)
    (hpwd : account.pwd = some pwd) : pwd.take 32 = env.md5Password email line := by
  obtain ⟨digest, stored, hdigest, hstored, hsame⟩ := h
  rw [hemail] at hdigest
  rw [hpwd] at hstored
  obtain rfl := Option.some.inj hdigest
  obtain rfl := Option.some.inj hstored
  rw [← of_decide_eq_true hsame]
  exact List.take_of_length_le (hlength email line).le

theorem Creating.cons {entry : Entry} {email : Text} (h : Creating past player email)
    (hentry : ∀ call ∈ entry.calls, call.1.loads = false)
    (haccount : player'.account = player.account) :
    Creating (entry :: past) player' email := by
  obtain ⟨hload, account, hcreated, hemail⟩ := h
  exact ⟨hload.cons hentry, account, haccount.trans hcreated, hemail⟩

/-- In the states before the last password the session creates its account. -/
theorem Known.creating (h : Known env past player)
    (hstate : player.state = .confirmEmail ∨ player.state = .getNewUserPassword ∨
      player.state = .confirmPassword) : ∃ email, Creating past player email := by
  unfold Known at h
  rcases hstate with hstate | hstate | hstate
  · rwa [hstate] at h
  · rwa [hstate] at h
  · rw [hstate] at h
    obtain ⟨first, older, email, line, account, -, hload, -, -, -, haccount, hemail, -⟩ := h
    exact ⟨email, hload, account, haccount, hemail⟩

/-- What is known after a line that is asked for again. -/
theorem Known.again {moment : Moment} {line : Option Text} (h : Known env past player)
    (hrepeats : player.state.repeats = true) :
    Known env (⟨player, moment, line, []⟩ :: past) player := by
  have hnil : ∀ call ∈ ([] : List Call), call.1.loads = false := List.forall_mem_nil _
  cases hstate : player.state <;> rw [hstate] at hrepeats <;> cases hrepeats
  case getEmail =>
    unfold Known
    rw [hstate]
    trivial
  case confirmEmail =>
    obtain ⟨email, hcreating⟩ := h.creating (.inl hstate)
    unfold Known
    rw [hstate]
    exact ⟨email, hcreating.cons hnil rfl⟩
  all_goals
    have hauthenticated : player.state.authenticated = true := by rw [hstate]; rfl
    exact h.stays hauthenticated hauthenticated hnil rfl

include hlength in
/-- What is known after a line that was answered by an edge. -/
theorem Known.edge {moment : Moment} {line : Option Text} {calls : List Call} {player₁ : Player}
    {newState : PlayerState} (h : Known env past player)
    (hedge : Edge env player (skipSpaces line) calls player₁ newState)
    (hne : newState ≠ .noChange) (hentered : Entered player₁ newState player') :
    Known env (⟨player, moment, line, calls⟩ :: past) player' := by
  have hnil : ∀ call ∈ ([] : List Call), call.1.loads = false := List.forall_mem_nil _
  have hstays : player.state.authenticated = true → newState.authenticated = true →
      (∀ call ∈ calls, call.1.loads = false) →
      player₁.account.map PlayerAccount.email = player.account.map PlayerAccount.email →
      Known env (⟨player, moment, line, calls⟩ :: past) player' := by
    intro hstate hnew hcalls hemail
    apply h.stays hstate _ hcalls
    · rw [hentered.account, hemail]
    · rwa [hentered.state]
  have hstate' := hentered.state
  have haccount' := hentered.account
  cases hedge with
  | same _ => exact absurd rfl hne
  | greeted _ | leaves | wrongEmail _ =>
      unfold Known
      rw [hstate']
      trivial
  | @loaded email row hstate =>
      unfold Known
      rw [hstate']
      exact ⟨email, row, ⟨[], _, past, rfl, hstate, rfl, List.forall_mem_nil _⟩, haccount'⟩
  | @created email hstate =>
      unfold Known
      rw [hstate']
      exact ⟨email, ⟨[], _, past, rfl, hstate, rfl, List.forall_mem_nil _⟩, _, haccount', rfl⟩
  | rightEmail hstate =>
      obtain ⟨email, hcreating⟩ := h.creating (.inl hstate)
      unfold Known
      rw [hstate']
      exact ⟨email, hcreating.cons hnil haccount'⟩
  | again hstate =>
      obtain ⟨email, hcreating⟩ := h.creating (.inr hstate)
      unfold Known
      rw [hstate']
      exact ⟨email, hcreating.cons hnil haccount'⟩
  | @chosen arg account hstate harg haccount =>
      obtain ⟨email, hload, created, hcreated, hemail⟩ := h.creating (.inr (.inl hstate))
      obtain rfl := Option.some.inj (haccount.symm.trans hcreated)
      unfold Known
      rw [hstate']
      refine ⟨_, past, email, arg, _, rfl, hload.cons hnil, hload, hstate, harg, haccount',
        hemail, ?_⟩
      rw [hemail]
      rfl
  | @confirmed arg account hstate harg haccount hagrees =>
      unfold Known at h
      rw [hstate] at h
      obtain ⟨first, older, email, line₀, entered, rfl, hload, hload₀, hfirst, hline₀,
          haccount₀, hemail,
        hpwd⟩ := h
      obtain rfl := Option.some.inj (haccount.symm.trans haccount₀)
      have hdigits := hagrees.digits hlength hemail hpwd
      rw [List.take_of_length_le (hlength email line₀).le] at hdigits
      rw [known_authenticated (by rw [hstate']; rfl)]
      exact ⟨account, haccount'.trans haccount, .inr ⟨[], _, first, older, email, line₀, arg, rfl,
        hload.cons hnil, hload₀, hfirst, hstate, hline₀, harg, hdigits.symm, hemail⟩⟩
  | @entered arg account hstate harg haccount hagrees =>
      unfold Known at h
      rw [hstate] at h
      obtain ⟨email, row, hload, hrow⟩ := h
      obtain rfl := Option.some.inj (haccount.symm.trans hrow)
      have hdigits := hagrees.digits hlength rfl rfl
      rw [known_authenticated (by rw [hstate']; rfl)]
      exact ⟨.ofRow row, haccount'.trans haccount, .inl ⟨[], _, past, email, row, arg, rfl,
        hload.cons hnil, hload, hstate, haccount, harg, hdigits, rfl⟩⟩
  | menu hstate hcalls hemail hnew =>
      exact hstays (authenticated_of_inMenu hstate) (authenticated_of_inMenu hnew) hcalls hemail
  | admitted hstate _ _ hnew =>
      refine hstays (by rw [hstate]; rfl) ?_ hnil rfl
      rcases hnew with rfl | rfl <;> rfl
  | plays hstate _ _ _ _ => exact hstays (by rw [hstate]; rfl) rfl hnil rfl
  | returned hstate hcalls =>
      refine hstays ?_ rfl hcalls rfl
      rcases hstate with hstate | hstate
      · rw [hstate]
        rfl
      · exact authenticated_of_inCreation hstate
  | creates hstate hcalls hnew _ =>
      exact hstays (authenticated_of_inCreation hstate)
        (authenticated_of_inCreation hnew) hcalls rfl
  | rerolls hstate _ _ => exact hstays (by rw [hstate]; rfl) rfl hnil rfl

include hlength in
/-- What is known in a session. -/
theorem Session.known (h : Session env past player) : Known env past player := by
  induction h with
  | connected => trivial
  | line h hline ih =>
      rcases machine_cases h.used hline with ⟨rfl, rfl, hrepeats⟩ |
        ⟨player₁, newState, hedge, hne, hentered⟩
      · exact ih.again hrepeats
      · exact ih.edge hlength hedge hne hentered

/-- Behind the passwords, the password of the account was entered. -/
theorem session_authenticated {parseEmail : Text → Option Text} {md5 : Text → Vector UInt8 16}
    {realm : Text} {confcode : Option Text → ℕ → Text}
    (h : Session (.ofDigest parseEmail md5 realm confcode) past player)
    (hstate : player.state.authenticated = true) :
    ∃ account, player.account = some account ∧
      (LoggedIn (.ofDigest parseEmail md5 realm confcode) past account ∨
        Registered (.ofDigest parseEmail md5 realm confcode) past account) :=
  (known_authenticated hstate).mp (h.known (length_digestPassword md5 realm))

/-- A session logs in with the stored password. -/
theorem session_authenticated_login : ∃ past player,
    Session plainEnvironment past player ∧ player.state = .showAccountMenu ∧
      ∃ account, player.account = some account ∧
        (LoggedIn plainEnvironment past account ∨ Registered plainEnvironment past account) := by
  let moment : Moment := ⟨0, false, false⟩
  let row : Account := ⟨1, someEmail, somePasswd, true, true, []⟩
  let player₁ : Player := ⟨.getEmail, none, ⟨0, 0, 0, 0⟩, .getEmail⟩
  let player₂ : Player := ⟨.getPassword, some (.ofRow row), ⟨0, 0, 0, 0⟩, .getPassword⟩
  let player₃ : Player := ⟨.showAccountMenu, some (.ofRow row), ⟨0, 0, 0, 0⟩, .showAccountMenu⟩
  have hgreeted : (loginStateMachine plainEnvironment moment .create (some [120])).Returns []
      player₁ := .done _
  have hasked : (loginStateMachine plainEnvironment moment player₁ (some someEmail)).Returns
      [⟨.loadAccount someEmail, some row⟩] player₂ := .ask (.done _)
  have hentered : (loginStateMachine plainEnvironment moment player₂ (some [112])).Returns []
      player₃ := .done _
  have hsession := ((Session.connected.line hgreeted).line hasked).line hentered
  exact ⟨_, player₃, hsession, rfl, session_authenticated hsession rfl⟩

end Authentication

end HavokMud.Login
