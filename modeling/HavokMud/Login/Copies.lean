import HavokMud.Login.System

/-!
# The copies of the parties

Every party saves a whole row from its own copy.  Where it waits for a line, a session holds the row
it last read or wrote, or a new account under an e-mail that had no row.  What it saves keeps the
e-mail of the row and its flag, unless a code was presented or the colours were chosen.
-/

namespace HavokMud.Login

open Interaction BTree Mysql

/-- The code that a request presents. -/
def Request.presents : Request → Option Text
  | .line player input => if player.state = .enterConfirmCode then skipSpaces input else none
  | .confirm code => code
  | _ => none

/-- A session of a confirmed account without a code chooses its colours. -/
def Request.Recolours : Request → Prop
  | .line player input => player.state = .chooseAnsi ∧
      (∃ account, player.account = some account ∧ account.confirmed = true ∧
        account.confcode = []) ∧
      ∃ arg, skipSpaces input = some arg ∧ (firstLower arg = 121 ∨ firstLower arg = 110)
  | _ => False

section Copies

variable (found : Text → Account → Prop)

/-- What is known of the answers of the database. -/
def Admits : (op : Op) → op.Ans → Prop
  | .loadAccount _, ans => ∀ row ∈ ans, row.id ≠ 0
  | .loadAccountByConfirm code, ans => ∀ row ∈ ans, row.id ≠ 0 ∧ found code row
  | .saveAccount account, id => id ≠ 0 ∧ account.row ≠ none
  | .findPc _, _ => True

/-- The flag of the copy is that of the row, or a code was presented, or the colours were chosen. -/
def FlagKept (request : Request) (row : Account) (account : PlayerAccount) : Prop :=
  account.confirmed = row.confirmed ∨
    (account.confirmed = true ∧ ∃ code, request.presents = some code ∧ found code row) ∨
    (account.confirmed = false ∧ request.Recolours)

/-- A new account under an e-mail that had no row. -/
structure New (seen : Seen) (account : PlayerAccount) : Prop where
  id : account.id = 0
  confirmed : account.confirmed = false
  email : ∃ email, account.email = some email ∧ seen = .absent email

/-- The copy of a row that the party has seen. -/
structure CopyOf (seen : Seen) (account : PlayerAccount) (row : Account) : Prop where
  seen : seen = .row row
  id : account.id = row.id
  known : row.id ≠ 0
  email : account.email = some row.email

/-- What is known of a copy that is saved.  A pc is looked for with a row at hand. -/
def Saves (view : View) : Op → Prop
  | .saveAccount account => (New view.seen account ∧ view.request ≠ .login) ∨
      ∃ row, CopyOf view.seen account row ∧ FlagKept found view.request row account
  | .findPc _ => ∃ row, view.seen = .row row
  | _ => True

end Copies

/-- The states of a session that creates an account. -/
def PlayerState.creates : PlayerState → Bool
  | .confirmEmail | .getNewUserPassword | .confirmPassword | .chooseAnsi => true
  | _ => false

theorem anonymous_of_creates {state : PlayerState} (h : state.creates = true) :
    state.anonymous = false := by
  cases state <;> first
    | rfl
    | cases h

/-- The copy agrees with the row in the flag and the code. -/
def Current (seen : Seen) (account : PlayerAccount) : Prop :=
  ∃ row, CopyOf seen account row ∧ account.confirmed = row.confirmed ∧
    account.confcode = row.confcode

/-- What a session holds in a state. -/
def Settled (seen : Seen) (account : Option PlayerAccount) (state : PlayerState) : Prop :=
  state.anonymous = true ∨ ∃ a, account = some a ∧
    ((New seen a ∧ a.confcode = [] ∧ state.creates = true) ∨
      (Current seen a ∧ (state = .enterConfirmCode → a.confirmed = false)))

/-! ## Calls -/

section Calls

variable {found : Text → Account → Prop} {α : Type} {post : View → α → Prop} {view : View}

variable (found) in
/-- What a program saves is as it should be, and its result meets a condition. -/
abbrev Runs (post : View → α → Prop) (view : View) (dialog : Dialog α) : Prop :=
  Program.Along (Admits found) View.next (Saves found) post view dialog

theorem runs_withAccount {player : Player} {f : PlayerAccount → Dialog α}
    (h : ∀ account, player.account = some account → Runs found post view (f account)) :
    Runs found post view (withAccount player f) := by
  unfold withAccount
  split
  · trivial
  · next account haccount => exact h account haccount

/-- A party serves the same request to the end. -/
theorem Runs.request {dialog : Dialog α} (h : Runs found post view dialog) :
    Runs found (fun view' value ↦ post view' value ∧ view'.request = view.request) view dialog := by
  suffices hview : ∀ {view' : View}, view'.request = view.request → Runs found post view' dialog →
      Runs found (fun view' value ↦ post view' value ∧ view'.request = view.request)
        view' dialog from
    hview rfl h
  clear h
  induction dialog with
  | done value => exact fun hrequest h ↦ ⟨h, hrequest⟩
  | fault => exact fun _ _ ↦ trivial
  | ask op next ih => exact fun hrequest h ↦ ⟨h.1, fun ans hans ↦ ih ans hrequest (h.2 ans hans)⟩

theorem current_of_row {account : PlayerAccount} {row : Account} (hrow : account.row = some row)
    {id : ℤ} (hid : id ≠ 0) : Current (.row { row with id := id }) { account with id := id } := by
  obtain ⟨email, hemail, hrow⟩ := Option.bind_eq_some_iff.mp hrow
  obtain ⟨passwd, -, rfl⟩ := Option.map_eq_some_iff.mp hrow
  exact ⟨_, ⟨rfl, rfl, hid, hemail⟩, rfl, rfl⟩

theorem next_saveAccount (view : View) {account : PlayerAccount} {row : Account}
    (hrow : account.row = some row) (id : ℤ) :
    view.next (.saveAccount account) id = ⟨view.request, .row { row with id := id }⟩ := by
  change (⟨view.request, account.row.elim view.seen fun row ↦ .row { row with id := id }⟩ : View) =
    _
  rw [hrow]
  rfl

/-- After a save the copy agrees with the row. -/
theorem runs_pbSaveAccount {post : View → PlayerAccount → Prop} {account : PlayerAccount}
    (hsaves : Saves found view (.saveAccount account))
    (hpost : ∀ seen id, Current seen { account with id := id } →
      post ⟨view.request, seen⟩ { account with id := id }) :
    Runs found post view (pbSaveAccount account) := by
  apply Program.along_question hsaves
  rintro id ⟨hid, hrow⟩
  obtain ⟨row, hrow⟩ := Option.ne_none_iff_exists'.mp hrow
  rw [next_saveAccount view hrow]
  exact hpost _ id (current_of_row hrow hid)

theorem current_ofRow {row : Account} (hid : row.id ≠ 0) :
    Current (.row row) (PlayerAccount.ofRow row) :=
  ⟨row, ⟨rfl, rfl, hid, rfl⟩, rfl, rfl⟩

theorem runs_pbLoadAccount {post : View → Option PlayerAccount → Prop} {email : Text}
    (hsome : ∀ row : Account, row.id ≠ 0 →
      post ⟨view.request, .row row⟩ (some (PlayerAccount.ofRow row)))
    (hnone : post ⟨view.request, .absent email⟩ none) :
    Runs found post view (pbLoadAccount (some email)) := by
  apply Program.along_question trivial
  intro row hrow
  cases row with
  | none => exact hnone
  | some row => exact hsome row (hrow row rfl)

/-- A copy that agrees with its row may be saved with another flag, if there is a reason for it. -/
theorem Current.saves {account account' : PlayerAccount} (h : Current view.seen account)
    (hid : account'.id = account.id) (hemail : account'.email = account.email)
    (hflag : ∀ row, account.confirmed = row.confirmed → account.confcode = row.confcode →
      FlagKept found view.request row account') : Saves found view (.saveAccount account') := by
  obtain ⟨row, hcopy, hconfirmed, hconfcode⟩ := h
  exact .inr ⟨row, ⟨hcopy.seen, hid.trans hcopy.id, hcopy.known, hemail.trans hcopy.email⟩,
    hflag row hconfirmed hconfcode⟩

theorem runs_createSendConfirmEmail (env : Environment) (now : ℕ) {account : PlayerAccount}
    (h : Current view.seen account)
    (hflag : account.confcode = [] → account.confirmed = true → view.request.Recolours) :
    Runs found (fun view' account' ↦ Current view'.seen account') view
      (createSendConfirmEmail env now account) := by
  unfold createSendConfirmEmail
  split_ifs with hempty
  · apply runs_pbSaveAccount
    · refine h.saves rfl rfl ?_
      intro row hconfirmed _
      cases hcase : account.confirmed with
      | false => exact .inl (by rw [← hconfirmed, hcase])
      | true => exact .inr (.inr ⟨rfl, hflag hempty hcase⟩)
    · exact fun seen id hcurrent ↦ hcurrent
  · exact h

end Calls

/-! ## States -/

section States

variable {found : Text → Account → Prop} {view : View} (env : Environment) (moment : Moment)
  {player : Player}

/-- A session that settles in its state. -/
def SettledPlayer (view : View) (player : Player) : Prop :=
  Settled view.seen player.account player.state

theorem runs_enterState {now : ℕ} {newState : PlayerState} (hne : newState ≠ .resendConfirmEmail)
    (h : Settled view.seen player.account newState) :
    Runs found SettledPlayer view (enterState env now player newState) := by
  have hpost : ∀ player' : Player, player'.account = player.account →
      SettledPlayer view { player' with state := newState } := by
    intro player' haccount
    unfold SettledPlayer
    rw [haccount]
    exact h
  unfold enterState
  apply Program.Along.bind
  cases newState with
  | resendConfirmEmail => exact absurd rfl hne
  | confirmEmail | getNewUserPassword | showAccountMenu | showPlayerList =>
      exact runs_withAccount fun _ _ ↦ hpost _ rfl
  | _ => exact hpost _ rfl

theorem settled_anonymous {seen : Seen} {account : Option PlayerAccount} {state : PlayerState}
    (h : state.anonymous = true) : Settled seen account state :=
  .inl h

theorem Current.settled {seen : Seen} {account : PlayerAccount} (h : Current seen account)
    {state : PlayerState} (hstate : state = .enterConfirmCode → account.confirmed = false) :
    Settled seen (some account) state :=
  .inr ⟨account, rfl, .inr ⟨h, hstate⟩⟩

/-- Only the identity, the flag and the code of the account matter. -/
theorem Settled.replace {seen : Seen} {account account' : PlayerAccount} {state : PlayerState}
    (h : Settled seen (some account) state) (hid : account'.id = account.id)
    (hemail : account'.email = account.email) (hconfirmed : account'.confirmed = account.confirmed)
    (hconfcode : account'.confcode = account.confcode) : Settled seen (some account') state := by
  rcases h with hanonymous | ⟨a, ha, h⟩
  · exact .inl hanonymous
  obtain rfl := Option.some.inj ha
  rcases h with ⟨hnew, hempty, hcreates⟩ | ⟨⟨row, hcopy, hflag, hcode⟩, hstate⟩
  · refine .inr ⟨account', rfl, .inl ⟨⟨hid.trans hnew.id, hconfirmed.trans hnew.confirmed, ?_⟩,
      hconfcode.trans hempty, hcreates⟩⟩
    rw [hemail]
    exact hnew.email
  · refine .inr ⟨account', rfl, .inr ⟨⟨row, ⟨hcopy.seen, hid.trans hcopy.id, hcopy.known,
      hemail.trans hcopy.email⟩, hconfirmed.trans hflag, hconfcode.trans hcode⟩, ?_⟩⟩
    rw [hconfirmed]
    exact hstate

/-- A session that creates an account goes on with it. -/
theorem Settled.creating {seen : Seen} {account : Option PlayerAccount} {state : PlayerState}
    (h : Settled seen account state) (hstate : state.anonymous = false) {newState : PlayerState}
    (hnew : newState.creates = true) : Settled seen account newState := by
  rcases h with hanonymous | ⟨a, rfl, ⟨ha, hempty, -⟩ | ⟨hcurrent, -⟩⟩
  · rw [hstate] at hanonymous
    cases hanonymous
  · exact .inr ⟨a, rfl, .inl ⟨ha, hempty, hnew⟩⟩
  · apply hcurrent.settled
    rintro rfl
    cases hnew

/-- Where no account is created, the copy is that of a row. -/
theorem Settled.current {seen : Seen} {account : Option PlayerAccount} {state : PlayerState}
    (h : Settled seen account state) (hstate : state.anonymous = false)
    (hcreates : state.creates = false) :
    ∃ a, account = some a ∧ Current seen a ∧ (state = .enterConfirmCode → a.confirmed = false) := by
  rcases h with hanonymous | ⟨a, rfl, ⟨-, -, hnew⟩ | ⟨hcurrent, hcode⟩⟩
  · rw [hstate] at hanonymous
    cases hanonymous
  · rw [hcreates] at hnew
    cases hnew
  · exact ⟨a, rfl, hcurrent, hcode⟩

/-- What a handler returns. -/
def Handled (view : View) (result : Player × PlayerState) : Prop :=
  result.2 ≠ .resendConfirmEmail ∧ Settled view.seen result.1.account
    (if result.2 = .noChange then result.1.state else result.2)

/-- A handler that leaves the player as it is. -/
theorem handled_same {newState : PlayerState} (hne : newState ≠ .resendConfirmEmail)
    (hno : newState ≠ .noChange) (h : Settled view.seen player.account newState) :
    Runs found Handled view (pure (player, newState)) := by
  refine ⟨hne, ?_⟩
  rw [if_neg hno]
  exact h

theorem handled_noChange (h : Settled view.seen player.account player.state) :
    Runs found Handled view (pure (player, .noChange)) :=
  ⟨PlayerState.noConfusion, h⟩

theorem runs_resend {now : ℕ} {account : PlayerAccount} (haccount : player.account = some account)
    (h : Current view.seen account)
    (hflag : account.confcode = [] → account.confirmed = true → view.request.Recolours) :
    Runs found (fun view' player' ↦ ∃ account', player'.account = some account' ∧
        Current view'.seen account') view (enterState env now player .resendConfirmEmail) := by
  unfold enterState
  apply Program.Along.bind
  apply runs_withAccount
  intro account' haccount'
  obtain rfl := Option.some.inj (haccount.symm.trans haccount')
  apply Program.Along.bind
  apply Program.Along.mono (runs_createSendConfirmEmail env now h hflag)
  intro view' account' hcurrent
  exact ⟨account', rfl, hcurrent⟩

theorem runs_doGetEmail {arg : Option Text} (hstate : player.state = .getEmail) :
    Runs found Handled view (doGetEmail env moment player arg) := by
  cases arg with
  | none => exact handled_same (by decide) (by decide) (settled_anonymous rfl)
  | some arg =>
      unfold doGetEmail
      dsimp only
      split
      · apply handled_noChange
        rw [hstate]
        exact settled_anonymous rfl
      · by_cases hlock : moment.siteLock = true
        · rw [if_pos hlock]
          exact handled_same (by decide) (by decide) (settled_anonymous rfl)
        · rw [if_neg hlock]
          apply Program.Along.bind
          apply runs_pbLoadAccount
          · intro row hid
            exact handled_same (by decide) (by decide)
              ((current_ofRow hid).settled fun hstate ↦ by cases hstate)
          · dsimp only
            split_ifs with hwiz
            · exact handled_same (by decide) (by decide) (settled_anonymous rfl)
            · exact handled_same (by decide) (by decide)
                (.inr ⟨_, rfl, .inl ⟨⟨rfl, rfl, _, rfl, rfl⟩, rfl, rfl⟩⟩)

theorem runs_doConfirmEmail {arg : Option Text} (hstate : player.state = .confirmEmail)
    (h : Settled view.seen player.account .confirmEmail) :
    Runs found Handled view (doConfirmEmail player arg) := by
  have hsame : Runs found Handled view (pure (player, .noChange)) := by
    apply handled_noChange
    rwa [hstate]
  cases arg with
  | none => exact hsame
  | some arg =>
      unfold doConfirmEmail
      dsimp only
      split
      · exact handled_same (by decide) (by decide) (h.creating rfl rfl)
      · exact handled_same (by decide) (by decide) (settled_anonymous rfl)
      · exact hsame

theorem runs_doGetNewUserPassword {arg : Option Text}
    (h : Settled view.seen player.account .getNewUserPassword) :
    Runs found Handled view (doGetNewUserPassword env player arg) := by
  have hagain : Runs found Handled view (pure (player, .getNewUserPassword)) :=
    handled_same (by decide) (by decide) h
  cases arg with
  | none => exact hagain
  | some arg =>
      unfold doGetNewUserPassword
      dsimp only
      split_ifs with hlong
      · exact hagain
      · apply runs_withAccount
        intro account haccount
        rw [haccount] at h
        exact handled_same (by decide) (by decide) ((h.creating rfl rfl).replace rfl rfl rfl rfl)

theorem runs_comparePassword {account : PlayerAccount} {arg : Text} {stored : Option Text}
    {same other : Dialog (Player × PlayerState)} (hsame : Runs found Handled view same)
    (hother : Runs found Handled view other) :
    Runs found Handled view (comparePassword env account arg stored same other) := by
  unfold comparePassword
  split
  · split_ifs
    · exact hsame
    · exact hother
  · trivial

theorem runs_doConfirmPassword {arg : Option Text}
    (h : Settled view.seen player.account .confirmPassword) :
    Runs found Handled view (doConfirmPassword env player arg) := by
  have hagain : Runs found Handled view (pure (player, .getNewUserPassword)) :=
    handled_same (by decide) (by decide) (h.creating rfl rfl)
  cases arg with
  | none => exact hagain
  | some arg =>
      apply runs_withAccount
      intro account _
      exact runs_comparePassword env
        (handled_same (by decide) (by decide) (h.creating rfl rfl)) hagain

/-- A state of the account menu with the copy of a row. -/
theorem handled_current {account : PlayerAccount} (haccount : player.account = some account)
    (h : Current view.seen account) {newState : PlayerState}
    (hne : newState ≠ .resendConfirmEmail) (hno : newState ≠ .noChange)
    (hcode : newState ≠ .enterConfirmCode) :
    Runs found Handled view (pure (player, newState)) := by
  apply handled_same hne hno
  rw [haccount]
  exact h.settled fun hstate ↦ absurd hstate hcode

theorem runs_doGetPassword {arg : Option Text} (h : Settled view.seen player.account .getPassword) :
    Runs found Handled view (doGetPassword env player arg) := by
  obtain ⟨a, ha, hcurrent, -⟩ := h.current rfl rfl
  have hleave : Runs found Handled view (pure (player, .disconnect)) :=
    handled_same (by decide) (by decide) (settled_anonymous rfl)
  cases arg with
  | none => exact hleave
  | some arg =>
      apply runs_withAccount
      intro account _
      exact runs_comparePassword env
        (handled_current ha hcurrent (by decide) (by decide) (by decide)) hleave

/-- The row is written with the colours, and a second time with a code if it had none. -/
theorem runs_chooseColour (ansi : Bool) (hlogin : view.request ≠ .login)
    (h : Settled view.seen player.account .chooseAnsi)
    (hflag : ∀ account, player.account = some account → account.confcode = [] →
      account.confirmed = true → view.request.Recolours) :
    Runs found Handled view (chooseColour env moment player ansi) := by
  apply runs_withAccount
  intro account haccount
  have hsaves : Saves found view (.saveAccount { account with ansi := ansi }) := by
    rcases h with hanonymous | ⟨a, ha, ⟨hnew, -, -⟩ | ⟨hcurrent, -⟩⟩
    · cases hanonymous
    · obtain rfl := Option.some.inj (haccount.symm.trans ha)
      exact .inl ⟨⟨hnew.id, hnew.confirmed, hnew.email⟩, hlogin⟩
    · obtain rfl := Option.some.inj (haccount.symm.trans ha)
      exact hcurrent.saves rfl rfl fun row hconfirmed _ ↦ .inl hconfirmed
  apply Program.Along.bind
  apply runs_pbSaveAccount hsaves
  intro seen id hcurrent
  dsimp only
  split_ifs with hempty
  · apply Program.Along.bind
    refine Program.Along.mono (runs_resend env rfl hcurrent ?_) ?_
    · exact hflag account haccount
    · rintro view' player' ⟨account', haccount', hcurrent'⟩
      exact handled_current haccount' hcurrent' (by decide) (by decide) (by decide)
  · exact handled_current rfl hcurrent (by decide) (by decide) (by decide)

theorem runs_doChooseAnsi {arg : Option Text} (hlogin : view.request ≠ .login)
    (hstate : player.state = .chooseAnsi) (h : Settled view.seen player.account .chooseAnsi)
    (hflag : ∀ text, arg = some text → (firstLower text = 121 ∨ firstLower text = 110) →
      ∀ account, player.account = some account → account.confcode = [] →
        account.confirmed = true → view.request.Recolours) :
    Runs found Handled view (doChooseAnsi env moment player arg) := by
  have hsame : Runs found Handled view (pure (player, .noChange)) := by
    apply handled_noChange
    rwa [hstate]
  cases arg with
  | none => exact hsame
  | some text =>
      unfold doChooseAnsi
      dsimp only
      split
      · next hyes => exact runs_chooseColour env moment true hlogin h (hflag text rfl (.inl hyes))
      · next hno => exact runs_chooseColour env moment false hlogin h (hflag text rfl (.inr hno))
      · exact hsame

theorem runs_doShowAccountMenu {arg : Option Text}
    (h : Settled view.seen player.account .showAccountMenu) :
    Runs found Handled view (doShowAccountMenu env moment player arg) := by
  obtain ⟨a, ha, hcurrent, -⟩ := h.current rfl rfl
  have hmenu : Runs found Handled view (pure (player, .showAccountMenu)) :=
    handled_same (by decide) (by decide) h
  have hconfirmed : ∀ {newState : PlayerState}, newState ≠ .resendConfirmEmail →
      newState ≠ .noChange → newState ≠ .enterConfirmCode →
      Runs found Handled view (ifConfirmed player newState) := by
    intro newState hne hno hcode
    apply runs_withAccount
    intro account _
    split_ifs
    · exact handled_current ha hcurrent hne hno hcode
    · exact hmenu
  cases arg with
  | none => exact hmenu
  | some arg =>
      unfold doShowAccountMenu
      dsimp only
      split
      · exact handled_current ha hcurrent (by decide) (by decide) (by decide)
      · exact handled_current ha hcurrent (by decide) (by decide) (by decide)
      · exact handled_current ha hcurrent (by decide) (by decide) (by decide)
      · exact handled_current ha hcurrent (by decide) (by decide) (by decide)
      · exact hconfirmed (by decide) (by decide) (by decide)
      · exact hconfirmed (by decide) (by decide) (by decide)
      · exact hconfirmed (by decide) (by decide) (by decide)
      · apply runs_withAccount
        intro account haccount
        obtain rfl := Option.some.inj (ha.symm.trans haccount)
        split_ifs with hflag
        · exact hmenu
        · apply handled_same (by decide) (by decide)
          rw [ha]
          exact hcurrent.settled fun _ ↦ Bool.eq_false_iff.mpr hflag
      · apply runs_withAccount
        intro account haccount
        obtain rfl := Option.some.inj (ha.symm.trans haccount)
        split_ifs with hflag
        · exact hmenu
        · apply Program.Along.bind
          apply Program.Along.mono (runs_resend env ha hcurrent fun _ htrue ↦ absurd htrue hflag)
          rintro view' player' ⟨account', haccount', hcurrent'⟩
          exact handled_current haccount' hcurrent' (by decide) (by decide) (by decide)
      · exact handled_same (by decide) (by decide) (settled_anonymous rfl)
      · exact hmenu

theorem runs_doGetNewPassword {arg : Option Text}
    (h : Settled view.seen player.account .getNewPassword) :
    Runs found Handled view (doGetNewPassword env player arg) := by
  obtain ⟨a, ha, hcurrent, -⟩ := h.current rfl rfl
  have hagain : Runs found Handled view (pure (player, .getNewPassword)) :=
    handled_same (by decide) (by decide) h
  cases arg with
  | none => exact hagain
  | some arg =>
      unfold doGetNewPassword
      dsimp only
      split_ifs with hlong
      · exact hagain
      · apply runs_withAccount
        intro account haccount
        obtain rfl := Option.some.inj (ha.symm.trans haccount)
        exact handled_same (by decide) (by decide)
          ((hcurrent.settled fun hstate ↦ by cases hstate).replace rfl rfl rfl rfl)

theorem runs_doConfirmNewPassword {arg : Option Text}
    (h : Settled view.seen player.account .confirmNewPassword) :
    Runs found Handled view (doConfirmNewPassword env player arg) := by
  obtain ⟨a, ha, hcurrent, -⟩ := h.current rfl rfl
  have hmenu : Runs found Handled view (pure (player, .showAccountMenu)) :=
    handled_current ha hcurrent (by decide) (by decide) (by decide)
  cases arg with
  | none => exact hmenu
  | some arg =>
      apply runs_withAccount
      intro account haccount
      obtain rfl := Option.some.inj (ha.symm.trans haccount)
      refine runs_comparePassword env ?_ hmenu
      apply Program.Along.bind
      apply runs_pbSaveAccount
      · exact hcurrent.saves rfl rfl fun row hconfirmed _ ↦ .inl hconfirmed
      · intro seen id hsaved
        exact handled_current rfl hsaved (by decide) (by decide) (by decide)

/-- A code that fits confirms the account, and another one leaves it unconfirmed. -/
theorem runs_doEnterConfirmCode {arg : Option Text}
    (hfound : ∀ code row, code ≠ [] → fold code = fold row.confcode → found code row)
    (h : Settled view.seen player.account .enterConfirmCode)
    (hpresents : view.request.presents = arg) :
    Runs found Handled view (doEnterConfirmCode player arg) := by
  obtain ⟨a, ha, hcurrent, hunconfirmed⟩ := h.current rfl rfl
  cases arg with
  | none => exact handled_current ha hcurrent (by decide) (by decide) (by decide)
  | some arg =>
      apply runs_withAccount
      intro account haccount
      obtain rfl := Option.some.inj (ha.symm.trans haccount)
      split_ifs with hcode
      · apply Program.Along.bind
        apply runs_pbSaveAccount
        · refine hcurrent.saves rfl rfl ?_
          intro row _ hconfcode
          refine .inr (.inl ⟨rfl, arg, hpresents, hfound arg row ?_ ?_⟩)
          · rintro rfl
            apply hcode.1
            simpa [fold] using hcode.2.symm
          · rw [← hconfcode]
            exact hcode.2
        · intro seen id hsaved
          exact handled_current rfl hsaved (by decide) (by decide) (by decide)
      · apply Program.Along.bind
        apply runs_pbSaveAccount
        · refine hcurrent.saves rfl rfl ?_
          intro row hconfirmed _
          exact .inl ((hunconfirmed rfl).symm.trans hconfirmed)
        · intro seen id hsaved
          exact handled_current rfl hsaved (by decide) (by decide) (by decide)

theorem runs_doShowCreationMenu {arg : Option Text} (hstate : player.state = .showCreationMenu)
    (h : Settled view.seen player.account .showCreationMenu) :
    Runs found Handled view (doShowCreationMenu player arg) := by
  obtain ⟨a, ha, hcurrent, -⟩ := h.current rfl rfl
  have hmenu : Runs found Handled view (pure (player, .showCreationMenu)) :=
    handled_same (by decide) (by decide) h
  cases arg with
  | none => exact hmenu
  | some arg =>
      unfold doShowCreationMenu
      dsimp only
      split
      case h_6 =>
        split_ifs with hclasses
        · exact handled_current ha hcurrent (by decide) (by decide) (by decide)
        · apply handled_noChange
          rwa [hstate]
      case h_8 =>
        split_ifs with hmissing
        · exact hmenu
        · exact handled_current ha hcurrent (by decide) (by decide) (by decide)
      all_goals exact handled_current ha hcurrent (by decide) (by decide) (by decide)

theorem runs_doChooseName {arg : Option Text} (h : Settled view.seen player.account .chooseName) :
    Runs found Handled view (doChooseName player arg) := by
  obtain ⟨a, ha, hcurrent, -⟩ := h.current rfl rfl
  cases arg with
  | none => exact handled_current ha hcurrent (by decide) (by decide) (by decide)
  | some arg =>
      apply Program.along_question
      · obtain ⟨row, hcopy, -⟩ := hcurrent
        exact ⟨row, hcopy.seen⟩
      intro pc _
      apply runs_withAccount
      intro account _
      split
      · exact handled_current ha hcurrent (by decide) (by decide) (by decide)
      · split_ifs with hother hcomplete
        · exact handled_current ha hcurrent (by decide) (by decide) (by decide)
        · exact handled_current ha hcurrent (by decide) (by decide) (by decide)
        · exact handled_current ha hcurrent (by decide) (by decide) (by decide)

theorem runs_doChooseSex {arg : Option Text} (h : Settled view.seen player.account .chooseSex) :
    Runs found Handled view (doChooseSex player arg) := by
  obtain ⟨a, ha, hcurrent, -⟩ := h.current rfl rfl
  cases arg with
  | none => exact handled_current ha hcurrent (by decide) (by decide) (by decide)
  | some arg =>
      unfold doChooseSex
      dsimp only
      split
      all_goals exact handled_current ha hcurrent (by decide) (by decide) (by decide)

/-- The handlers that only name the next state. -/
theorem runs_handler {line : Option Text}
    (hfound : ∀ code row, code ≠ [] → fold code = fold row.confcode → found code row)
    (hrequest : view.request = .line player line)
    (h : Settled view.seen player.account player.state) {dialog : Dialog (Player × PlayerState)}
    (hdialog : handler env moment player (skipSpaces line) player.state = some dialog) :
    Runs found Handled view dialog := by
  cases hstate : player.state <;> rw [hstate] at hdialog h <;> cases hdialog
  case initial => exact handled_same (by decide) (by decide) (settled_anonymous rfl)
  case getEmail => exact runs_doGetEmail env moment hstate
  case confirmEmail => exact runs_doConfirmEmail hstate h
  case getNewUserPassword => exact runs_doGetNewUserPassword env h
  case confirmPassword => exact runs_doConfirmPassword env h
  case getPassword => exact runs_doGetPassword env h
  case chooseAnsi =>
    apply runs_doChooseAnsi env moment (by rw [hrequest]; exact Request.noConfusion) hstate h
    intro text htext hanswer account haccount hempty hconfirmed
    rw [hrequest]
    exact ⟨hstate, ⟨account, haccount, hconfirmed, hempty⟩, text, htext, hanswer⟩
  case showAccountMenu => exact runs_doShowAccountMenu env moment h
  case getNewPassword => exact runs_doGetNewPassword env h
  case confirmNewPassword => exact runs_doConfirmNewPassword env h
  case enterConfirmCode =>
    apply runs_doEnterConfirmCode hfound h
    rw [hrequest]
    exact if_pos hstate
  case showCreationMenu => exact runs_doShowCreationMenu hstate h
  case chooseName => exact runs_doChooseName h
  case chooseSex => exact runs_doChooseSex h
  all_goals
    obtain ⟨a, ha, hcurrent, -⟩ := h.current rfl rfl
    exact handled_current ha hcurrent (by decide) (by decide) (by decide)

/-- Every line leaves the session settled. -/
theorem runs_loginStateMachine {line : Option Text}
    (hfound : ∀ code row, code ≠ [] → fold code = fold row.confcode → found code row)
    (h : Settled view.seen player.account player.state) :
    Runs found SettledPlayer (view.serve player line)
      (loginStateMachine env moment player line) := by
  have hseen : Settled (view.serve player line).seen player.account player.state := by
    cases hanonymous : player.state.anonymous with
    | true => exact settled_anonymous hanonymous
    | false =>
        rw [View.serve, hanonymous]
        exact h
  unfold loginStateMachine
  split
  · exact runs_enterState env (by decide) (settled_anonymous rfl)
  · next dialog hdialog =>
      apply Program.Along.bind
      apply Program.Along.mono (runs_handler env moment hfound rfl hseen hdialog)
      rintro view' ⟨player', newState⟩ ⟨hne, hsettled⟩
      dsimp only at hne hsettled ⊢
      split_ifs at hsettled ⊢ with hno
      · exact hsettled
      · exact runs_enterState env hne hsettled

end States

/-! ## Web requests -/

section Web

variable {found : Text → Account → Prop} {view : View} (env : Environment)

theorem runs_webServiceLogin (email passwd : Option Text) :
    Runs found (fun _ _ ↦ True) view (webServiceLogin env email passwd) := by
  apply Program.Along.bind
  cases email with
  | none => trivial
  | some email =>
      refine runs_pbLoadAccount ?_ trivial
      intro row hrow
      dsimp only
      split <;> trivial

theorem runs_webServiceRegister (now : ℕ) (email passwd : Option Text)
    (hrequest : view.request = .register) :
    Runs found (fun _ _ ↦ True) view (webServiceRegister env now email passwd) := by
  apply Program.Along.bind
  cases email with
  | none => trivial
  | some email =>
      apply runs_pbLoadAccount
      · exact fun _ _ ↦ trivial
      · apply Program.Along.bind
        apply runs_pbSaveAccount
        · refine .inl ⟨⟨rfl, rfl, email, rfl, rfl⟩, ?_⟩
          rw [hrequest]
          exact Request.noConfusion
        · exact fun _ _ _ ↦ trivial

theorem runs_webServiceConfirm (code : Option Text) (hrequest : view.request = .confirm code) :
    Runs found (fun _ _ ↦ True) view (webServiceConfirm code) := by
  apply Program.Along.bind
  cases code with
  | none => trivial
  | some code =>
      apply Program.along_question trivial
      intro row hrow
      cases row with
      | none => trivial
      | some row =>
          obtain ⟨hid, hfound⟩ := hrow row rfl
          apply Program.Along.bind
          apply runs_pbSaveAccount
          · refine .inr ⟨row, ⟨rfl, rfl, hid, rfl⟩, .inr (.inl ⟨rfl, code, ?_, hfound⟩)⟩
            change view.request.presents = some code
            rw [hrequest]
            rfl
          · exact fun _ _ _ ↦ trivial

end Web

end HavokMud.Login
