import HavokMud.Login.Machine

/-!
# Sessions

A session is a player who gets one line after the other.  Whatever the database answers, every line
takes the player along one of the edges that are listed here, so what holds in every reachable state
is read off the edges.
-/

namespace HavokMud.Login

open Interaction BTree Mysql

/-- A call of the database and its answer. -/
abbrev Call :=
  Sigma Op.Ans

def Op.loads : Op → Bool
  | .loadAccount _ => true
  | _ => false

/-! ## States -/

/-- The states that some handler returns or that a session starts in. -/
def PlayerState.used : PlayerState → Bool
  | .showWmotd | .pressEnter | .resendConfirmEmail | .showLoginMenu | .waitForAuth | .editExtraDescr
  | .deleteUser | .noChange => false
  | _ => true

/-- The account menu and what it leads to for any account. -/
def PlayerState.inMenu : PlayerState → Bool
  | .showAccountMenu | .chooseAnsi | .showMotd | .showCredits | .getNewPassword |
      .confirmNewPassword
  | .enterConfirmCode => true
  | _ => false

/-- The creation menu and what it leads to. -/
def PlayerState.inCreation : PlayerState → Bool
  | .showCreationMenu | .chooseName | .chooseSex | .chooseRace | .chooseClass | .chooseStats
  | .chooseAlignment | .rerollAbilities => true
  | _ => false

/-- The states whose handlers may return `STATE_NO_CHANGE`. -/
def PlayerState.repeats : PlayerState → Bool
  | .getEmail | .confirmEmail | .chooseAnsi | .showCreationMenu => true
  | _ => false

/-- The state whose prompt is seen after `EnterState`. -/
def PlayerState.prompt (newState shown : PlayerState) : PlayerState :=
  match newState with
  | .initial | .waitForAuth | .playing | .noChange => shown
  | .rerollAbilities => .showCreationMenu
  | _ => newState

/-! ## Edges -/

section Edges

variable (env : Environment)

/-- The password of a line agrees with a stored one in all digits that are compared. -/
def Agrees (account : PlayerAccount) (line : Text) (stored : Option Text) : Prop :=
  ∃ digest pwd, md5Password env account.email (some line) = some digest ∧ stored = some pwd ∧
    samePassword digest pwd = true

/-- What a handler does with a line: its calls, the player it leaves and the state it returns.  A
state without a handler leads to `STATE_DISCONNECT`. -/
inductive Edge (player : Player) (arg : Option Text) : List Call → Player → PlayerState → Prop
  | greeted (hstate : player.state = .initial) : Edge player arg [] player .getEmail
  | same (hstate : player.state.repeats = true) : Edge player arg [] player .noChange
  | leaves {calls : List Call} {account : Option PlayerAccount} :
      Edge player arg calls { player with account := account } .disconnect
  | loaded {email : Text} {row : Account} (hstate : player.state = .getEmail) :
      Edge player arg [⟨.loadAccount email, some row⟩]
        { player with account := some (.ofRow row) } .getPassword
  | created {email : Text} (hstate : player.state = .getEmail) :
      Edge player arg [⟨.loadAccount email, none⟩]
        { player with account := some (.create email) } .confirmEmail
  | rightEmail (hstate : player.state = .confirmEmail) :
      Edge player arg [] player .getNewUserPassword
  | wrongEmail (hstate : player.state = .confirmEmail) : Edge player arg [] player .getEmail
  | again (hstate : player.state = .getNewUserPassword ∨ player.state = .confirmPassword) :
      Edge player arg [] player .getNewUserPassword
  | chosen {line : Text} {account : PlayerAccount} (hstate : player.state = .getNewUserPassword)
      (harg : arg = some line) (haccount : player.account = some account) :
      Edge player arg [] { player with
        account := some { account with
          pwd := md5Password env account.email (some line) } } .confirmPassword
  | confirmed {line : Text} {account : PlayerAccount} (hstate : player.state = .confirmPassword)
      (harg : arg = some line) (haccount : player.account = some account)
      (hagrees : Agrees env account line account.pwd) : Edge player arg [] player .chooseAnsi
  | entered {line : Text} {account : PlayerAccount} (hstate : player.state = .getPassword)
      (harg : arg = some line) (haccount : player.account = some account)
      (hagrees : Agrees env account line account.pwd) : Edge player arg [] player .showAccountMenu
  | menu {calls : List Call} {player' : Player} {newState : PlayerState}
      (hstate : player.state.inMenu = true) (hcalls : ∀ call ∈ calls, call.1.loads = false)
      (hemail : player'.account.map PlayerAccount.email = player.account.map PlayerAccount.email)
      (hnew : newState.inMenu = true) : Edge player arg calls player' newState
  | admitted {newState : PlayerState} {account : PlayerAccount}
      (hstate : player.state = .showAccountMenu) (haccount : player.account = some account)
      (hconfirmed : account.confirmed = true)
      (hnew : newState = .showPlayerList ∨ newState = .showCreationMenu) :
      Edge player arg [] player newState
  | plays {line : Text} {account : PlayerAccount} (hstate : player.state = .showAccountMenu)
      (harg : arg = some line) (hline : firstLower line = 55)
        (haccount : player.account = some account)
      (hconfirmed : account.confirmed = true) : Edge player arg [] player .playing
  | returned {calls : List Call}
      (hstate : player.state = .showPlayerList ∨ player.state.inCreation = true)
      (hcalls : ∀ call ∈ calls, call.1.loads = false) :
        Edge player arg calls player .showAccountMenu
  | creates {calls : List Call} {newState : PlayerState} (hstate : player.state.inCreation = true)
      (hcalls : ∀ call ∈ calls, call.1.loads = false) (hnew : newState.inCreation = true)
      (hne : newState ≠ .rerollAbilities) : Edge player arg calls player newState
  | rerolls {line : Text} (hstate : player.state = .showCreationMenu) (harg : arg = some line)
      (hline : firstLower line = 114) : Edge player arg [] player .rerollAbilities

variable {env} {moment : Moment} {player player' : Player} {arg : Option Text} {calls : List Call}
  {newState : PlayerState}

theorem returns_withAccount {α : Type} {f : PlayerAccount → Dialog α} {value : α} :
    (withAccount player f).Returns calls value ↔
      ∃ account, player.account = some account ∧ (f account).Returns calls value := by
  unfold withAccount
  split
  · next hnone =>
      constructor
      · exact fun h ↦ absurd h Program.not_returns_fault
      · rintro ⟨account, haccount, -⟩
        rw [hnone] at haccount
        cases haccount
  · next account haccount =>
      constructor
      · exact fun h ↦ ⟨account, haccount, h⟩
      · rintro ⟨account', haccount', h⟩
        rwa [Option.some.inj (haccount.symm.trans haccount')]

theorem returns_pbSaveAccount {account account' : PlayerAccount} :
    (pbSaveAccount account).Returns calls account' ↔
      ∃ id : ℤ, calls = [⟨.saveAccount account, id⟩] ∧ account' = { account with id := id } := by
  unfold pbSaveAccount
  rw [Program.returns_question_bind]
  simp only [Program.returns_pure]
  constructor
  · rintro ⟨id, rest, rfl, rfl, rfl⟩
    exact ⟨id, rfl, rfl⟩
  · rintro ⟨id, rfl, rfl⟩
    exact ⟨id, [], rfl, rfl, rfl⟩

theorem comparePassword_cases {account : PlayerAccount} {line : Text} {stored : Option Text}
    {same other : Dialog (Player × PlayerState)} {result : Player × PlayerState}
    (h : (comparePassword env account line stored same other).Returns calls result) :
    (Agrees env account line stored ∧ same.Returns calls result) ∨ other.Returns calls result := by
  unfold comparePassword at h
  split at h
  · next temppasswd pwd hdigest =>
      split_ifs at h with hsame
      · exact .inl ⟨⟨temppasswd, pwd, hdigest, rfl, hsame⟩, h⟩
      · exact .inr h
  · exact absurd h Program.not_returns_fault

theorem createSendConfirmEmail_cases {now : ℕ} {account account' : PlayerAccount}
    (h : (createSendConfirmEmail env now account).Returns calls account') :
    (∀ call ∈ calls, call.1.loads = false) ∧ account'.email = account.email := by
  unfold createSendConfirmEmail at h
  split_ifs at h with hempty
  · obtain ⟨id, rfl, rfl⟩ := returns_pbSaveAccount.mp h
    refine ⟨?_, rfl⟩
    intro call hcall
    rw [List.mem_singleton.mp hcall]
    rfl
  · obtain ⟨rfl, rfl⟩ := Program.returns_pure.mp h
    exact ⟨List.forall_mem_nil _, rfl⟩

theorem returns_pbLoadAccount {email : Text} {account : Option PlayerAccount} :
    (pbLoadAccount (some email)).Returns calls account ↔
      ∃ row : Option Account, calls = [⟨.loadAccount email, row⟩] ∧
        account = row.map PlayerAccount.ofRow := by
  unfold pbLoadAccount
  rw [Program.returns_question_bind]
  simp only [Program.returns_pure]
  constructor
  · rintro ⟨row, rest, rfl, rfl, rfl⟩
    exact ⟨row, rfl, rfl⟩
  · rintro ⟨row, rfl, rfl⟩
    exact ⟨row, [], rfl, rfl, rfl⟩

/-! ## Every handler takes an edge -/

/-- A handler that only returns a state. -/
theorem edge_pure {player₁ : Player} {state : PlayerState} (h : (pure (player₁, newState) :
      Dialog (Player × PlayerState)).Returns calls (player', state))
    (hedge : Edge env player arg [] player₁ newState) :
    Edge env player arg calls player' state := by
  obtain ⟨rfl, heq⟩ := Program.returns_pure.mp h
  obtain ⟨rfl, rfl⟩ := Prod.mk.inj heq
  exact hedge

theorem edge_doGetEmail (hstate : player.state = .getEmail)
    (h : (doGetEmail env moment player arg).Returns calls (player', newState)) :
    Edge env player arg calls player' newState := by
  cases arg with
  | none => exact edge_pure h .leaves
  | some arg =>
      unfold doGetEmail at h
      dsimp only at h
      split at h
      · apply edge_pure h
        apply Edge.same
        rw [hstate]
        rfl
      · next email hemail =>
          by_cases hlock : moment.siteLock = true
          · rw [if_pos hlock] at h
            exact edge_pure h .leaves
          · rw [if_neg hlock] at h
            obtain ⟨first, account, rest, rfl, hload, hrest⟩ := Program.returns_bind.mp h
            obtain ⟨row, rfl, rfl⟩ := returns_pbLoadAccount.mp hload
            cases row with
            | some row =>
                obtain ⟨rfl, heq⟩ := Program.returns_pure.mp hrest
                obtain ⟨rfl, rfl⟩ := Prod.mk.inj heq
                exact .loaded hstate
            | none =>
                dsimp only [Option.map_none] at hrest
                split_ifs at hrest with hwiz
                · obtain ⟨rfl, heq⟩ := Program.returns_pure.mp hrest
                  obtain ⟨rfl, rfl⟩ := Prod.mk.inj heq
                  exact .leaves
                · obtain ⟨rfl, heq⟩ := Program.returns_pure.mp hrest
                  obtain ⟨rfl, rfl⟩ := Prod.mk.inj heq
                  exact .created hstate

theorem edge_doConfirmEmail (hstate : player.state = .confirmEmail)
    (h : (doConfirmEmail player arg).Returns calls (player', newState)) :
    Edge env player arg calls player' newState := by
  have hsame : Edge env player arg [] player .noChange := .same (by rw [hstate]; rfl)
  cases arg with
  | none => exact edge_pure h hsame
  | some arg =>
      unfold doConfirmEmail at h
      dsimp only at h
      split at h
      · exact edge_pure h (.rightEmail hstate)
      · exact edge_pure h (.wrongEmail hstate)
      · exact edge_pure h hsame

theorem edge_doGetNewUserPassword (hstate : player.state = .getNewUserPassword)
    (h : (doGetNewUserPassword env player arg).Returns calls (player', newState)) :
    Edge env player arg calls player' newState := by
  cases arg with
  | none => exact edge_pure h (.again (.inl hstate))
  | some arg =>
      unfold doGetNewUserPassword at h
      dsimp only at h
      split_ifs at h with hlong
      · exact edge_pure h (.again (.inl hstate))
      · obtain ⟨account, haccount, h⟩ := returns_withAccount.mp h
        exact edge_pure h (.chosen hstate rfl haccount)

theorem edge_doConfirmPassword (hstate : player.state = .confirmPassword)
    (h : (doConfirmPassword env player arg).Returns calls (player', newState)) :
    Edge env player arg calls player' newState := by
  cases arg with
  | none => exact edge_pure h (.again (.inr hstate))
  | some arg =>
      obtain ⟨account, haccount, h⟩ := returns_withAccount.mp h
      rcases comparePassword_cases h with ⟨hagrees, h⟩ | h
      · exact edge_pure h (.confirmed hstate rfl haccount hagrees)
      · exact edge_pure h (.again (.inr hstate))

theorem edge_doGetPassword (hstate : player.state = .getPassword)
    (h : (doGetPassword env player arg).Returns calls (player', newState)) :
    Edge env player arg calls player' newState := by
  have hleaves : Edge env player arg [] player .disconnect := .leaves
  cases arg with
  | none => exact edge_pure h hleaves
  | some arg =>
      obtain ⟨account, haccount, h⟩ := returns_withAccount.mp h
      rcases comparePassword_cases h with ⟨hagrees, h⟩ | h
      · exact edge_pure h (.entered hstate rfl haccount hagrees)
      · exact edge_pure h hleaves

/-- The menu is left as it is. -/
theorem edge_menu (hstate : player.state.inMenu = true) (hnew : newState.inMenu = true) :
    Edge env player arg [] player newState :=
  .menu hstate (List.forall_mem_nil _) rfl hnew

theorem enterState_resend_cases {now : ℕ}
    (h : (enterState env now player .resendConfirmEmail).Returns calls player') :
    (∀ call ∈ calls, call.1.loads = false) ∧
      player'.account.map PlayerAccount.email = player.account.map PlayerAccount.email := by
  obtain ⟨first, entered, rest, rfl, henter, hrest⟩ := Program.returns_bind.mp h
  obtain ⟨rfl, rfl⟩ := Program.returns_pure.mp hrest
  obtain ⟨account, haccount, henter⟩ := returns_withAccount.mp henter
  obtain ⟨first', account', rest', rfl, hsend, hdone⟩ := Program.returns_bind.mp henter
  obtain ⟨rfl, rfl⟩ := Program.returns_pure.mp hdone
  obtain ⟨hcalls, hemail⟩ := createSendConfirmEmail_cases hsend
  rw [List.append_nil, List.append_nil]
  refine ⟨hcalls, ?_⟩
  rw [haccount, Option.map_some, Option.map_some, hemail]

theorem edge_chooseColour {ansi : Bool} (hstate : player.state = .chooseAnsi)
    (h : (chooseColour env moment player ansi).Returns calls (player', newState)) :
    Edge env player arg calls player' newState := by
  obtain ⟨account, haccount, h⟩ := returns_withAccount.mp h
  obtain ⟨first, saved, rest, rfl, hsave, hrest⟩ := Program.returns_bind.mp h
  obtain ⟨id, rfl, rfl⟩ := returns_pbSaveAccount.mp hsave
  have hinMenu : player.state.inMenu = true := by rw [hstate]; rfl
  have hmenu : ∀ {calls' : List Call} {player₁ : Player},
      (∀ call ∈ calls', call.1.loads = false) →
      player₁.account.map PlayerAccount.email = player.account.map PlayerAccount.email →
      Edge env player arg (⟨.saveAccount { account with ansi := ansi }, id⟩ :: calls') player₁
        .showAccountMenu :=
    fun hcalls hemail ↦ .menu hinMenu (List.forall_mem_cons.mpr ⟨rfl, hcalls⟩) hemail rfl
  dsimp only at hrest
  split_ifs at hrest with hempty
  · obtain ⟨second, player₁, third, rfl, hsend, hdone⟩ := Program.returns_bind.mp hrest
    obtain ⟨hcalls, hemail⟩ := enterState_resend_cases hsend
    obtain ⟨rfl, heq⟩ := Program.returns_pure.mp hdone
    obtain ⟨rfl, rfl⟩ := Prod.mk.inj heq
    rw [List.append_nil]
    apply hmenu hcalls
    rw [hemail, haccount]
    rfl
  · obtain ⟨rfl, heq⟩ := Program.returns_pure.mp hrest
    obtain ⟨rfl, rfl⟩ := Prod.mk.inj heq
    apply hmenu (List.forall_mem_nil _)
    rw [haccount]
    rfl

theorem edge_doChooseAnsi (hstate : player.state = .chooseAnsi)
    (h : (doChooseAnsi env moment player arg).Returns calls (player', newState)) :
    Edge env player arg calls player' newState := by
  have hsame : Edge env player arg [] player .noChange := .same (by rw [hstate]; rfl)
  cases arg with
  | none => exact edge_pure h hsame
  | some arg =>
      unfold doChooseAnsi at h
      dsimp only at h
      split at h
      · exact edge_chooseColour hstate h
      · exact edge_chooseColour hstate h
      · exact edge_pure h hsame

theorem edge_ifConfirmed {state : PlayerState}
    (h : (ifConfirmed player state).Returns calls (player', newState))
    (hstate : player.state = .showAccountMenu)
    (hedge : ∀ account, player.account = some account → account.confirmed = true →
      Edge env player arg [] player state) : Edge env player arg calls player' newState := by
  obtain ⟨account, haccount, h⟩ := returns_withAccount.mp h
  split_ifs at h with hconfirmed
  · exact edge_pure h (hedge account haccount hconfirmed)
  · exact edge_pure h (edge_menu (by rw [hstate]; rfl) rfl)

theorem edge_doShowAccountMenu (hstate : player.state = .showAccountMenu)
    (h : (doShowAccountMenu env moment player arg).Returns calls (player', newState)) :
    Edge env player arg calls player' newState := by
  have hinMenu : player.state.inMenu = true := by rw [hstate]; rfl
  cases arg with
  | none => exact edge_pure h (edge_menu hinMenu rfl)
  | some arg =>
      unfold doShowAccountMenu at h
      dsimp only at h
      split at h
      · exact edge_pure h (edge_menu hinMenu rfl)
      · exact edge_pure h (edge_menu hinMenu rfl)
      · exact edge_pure h (edge_menu hinMenu rfl)
      · exact edge_pure h (edge_menu hinMenu rfl)
      · exact edge_ifConfirmed h hstate fun _ haccount hconfirmed ↦
          .admitted hstate haccount hconfirmed (.inl rfl)
      · exact edge_ifConfirmed h hstate fun _ haccount hconfirmed ↦
          .admitted hstate haccount hconfirmed (.inr rfl)
      · next hline =>
          exact edge_ifConfirmed h hstate fun _ haccount hconfirmed ↦
            .plays hstate rfl hline haccount hconfirmed
      · obtain ⟨account, -, h⟩ := returns_withAccount.mp h
        split_ifs at h with hconfirmed
        · exact edge_pure h (edge_menu hinMenu rfl)
        · exact edge_pure h (edge_menu hinMenu rfl)
      · obtain ⟨account, -, h⟩ := returns_withAccount.mp h
        split_ifs at h with hconfirmed
        · exact edge_pure h (edge_menu hinMenu rfl)
        · obtain ⟨first, player₁, rest, rfl, hsend, hdone⟩ := Program.returns_bind.mp h
          obtain ⟨hcalls, hemail⟩ := enterState_resend_cases hsend
          obtain ⟨rfl, heq⟩ := Program.returns_pure.mp hdone
          obtain ⟨rfl, rfl⟩ := Prod.mk.inj heq
          rw [List.append_nil]
          exact .menu hinMenu hcalls hemail rfl
      · exact edge_pure h .leaves
      · exact edge_pure h (edge_menu hinMenu rfl)

theorem edge_doGetNewPassword (hstate : player.state = .getNewPassword)
    (h : (doGetNewPassword env player arg).Returns calls (player', newState)) :
    Edge env player arg calls player' newState := by
  have hinMenu : player.state.inMenu = true := by rw [hstate]; rfl
  cases arg with
  | none => exact edge_pure h (edge_menu hinMenu rfl)
  | some arg =>
      unfold doGetNewPassword at h
      dsimp only at h
      split_ifs at h with hlong
      · exact edge_pure h (edge_menu hinMenu rfl)
      · obtain ⟨account, haccount, h⟩ := returns_withAccount.mp h
        apply edge_pure h
        apply Edge.menu hinMenu (List.forall_mem_nil _) _ rfl
        rw [haccount]
        rfl

/-- A handler that saves the account and goes back to the menu. -/
theorem edge_save {account account' saved : PlayerAccount} (hinMenu : player.state.inMenu = true)
    (haccount : player.account = some account)
    (hsave : (pbSaveAccount account').Returns calls saved)
    (hemail : account'.email = account.email) :
    Edge env player arg calls { player with account := some saved } .showAccountMenu := by
  obtain ⟨id, rfl, rfl⟩ := returns_pbSaveAccount.mp hsave
  apply Edge.menu hinMenu (List.forall_mem_cons.mpr ⟨rfl, List.forall_mem_nil _⟩) _ rfl
  rw [haccount, Option.map_some, Option.map_some, hemail]

theorem edge_saved {account account' : PlayerAccount} (hinMenu : player.state.inMenu = true)
    (haccount : player.account = some account)
    (h : (pbSaveAccount account' >>= fun saved ↦
      pure ({ player with account := some saved }, PlayerState.showAccountMenu)).Returns calls
        (player', newState))
    (hemail : account'.email = account.email) :
    Edge env player arg calls player' newState := by
  obtain ⟨first, saved, rest, rfl, hsave, hdone⟩ := Program.returns_bind.mp h
  obtain ⟨rfl, heq⟩ := Program.returns_pure.mp hdone
  obtain ⟨rfl, rfl⟩ := Prod.mk.inj heq
  rw [List.append_nil]
  exact edge_save hinMenu haccount hsave hemail

theorem edge_doConfirmNewPassword (hstate : player.state = .confirmNewPassword)
    (h : (doConfirmNewPassword env player arg).Returns calls (player', newState)) :
    Edge env player arg calls player' newState := by
  have hinMenu : player.state.inMenu = true := by rw [hstate]; rfl
  cases arg with
  | none => exact edge_pure h (edge_menu hinMenu rfl)
  | some arg =>
      obtain ⟨account, haccount, h⟩ := returns_withAccount.mp h
      rcases comparePassword_cases h with ⟨-, h⟩ | h
      · exact edge_saved hinMenu haccount h rfl
      · exact edge_pure h (edge_menu hinMenu rfl)

theorem edge_doEnterConfirmCode (hstate : player.state = .enterConfirmCode)
    (h : (doEnterConfirmCode player arg).Returns calls (player', newState)) :
    Edge env player arg calls player' newState := by
  have hinMenu : player.state.inMenu = true := by rw [hstate]; rfl
  cases arg with
  | none => exact edge_pure h (edge_menu hinMenu rfl)
  | some arg =>
      obtain ⟨account, haccount, h⟩ := returns_withAccount.mp h
      dsimp only at h
      split_ifs at h with hcode
      · exact edge_saved hinMenu haccount h rfl
      · exact edge_saved hinMenu haccount h rfl

/-- A handler of the creation menu that only returns a state. -/
theorem edge_creates (hstate : player.state.inCreation = true) (hnew : newState.inCreation = true)
    (hne : newState ≠ .rerollAbilities) : Edge env player arg [] player newState :=
  .creates hstate (List.forall_mem_nil _) hnew hne

theorem edge_doShowCreationMenu (hstate : player.state = .showCreationMenu)
    (h : (doShowCreationMenu player arg).Returns calls (player', newState)) :
    Edge env player arg calls player' newState := by
  have hcreation : player.state.inCreation = true := by rw [hstate]; rfl
  cases arg with
  | none => exact edge_pure h (edge_creates hcreation rfl (by decide))
  | some arg =>
      unfold doShowCreationMenu at h
      dsimp only at h
      split at h
      · exact edge_pure h (edge_creates hcreation rfl (by decide))
      · next hline => exact edge_pure h (.rerolls hstate rfl hline)
      · exact edge_pure h (edge_creates hcreation rfl (by decide))
      · exact edge_pure h (edge_creates hcreation rfl (by decide))
      · exact edge_pure h (edge_creates hcreation rfl (by decide))
      · split_ifs at h with hclasses
        · exact edge_pure h (edge_creates hcreation rfl (by decide))
        · exact edge_pure h (.same (by rw [hstate]; rfl))
      · exact edge_pure h (edge_creates hcreation rfl (by decide))
      · split_ifs at h with hmissing
        · exact edge_pure h (edge_creates hcreation rfl (by decide))
        · exact edge_pure h (.returned (.inr hcreation) (List.forall_mem_nil _))
      · exact edge_pure h (edge_creates hcreation rfl (by decide))

theorem edge_doChooseName (hstate : player.state = .chooseName)
    (h : (doChooseName player arg).Returns calls (player', newState)) :
    Edge env player arg calls player' newState := by
  have hcreation : player.state.inCreation = true := by rw [hstate]; rfl
  cases arg with
  | none => exact edge_pure h (edge_creates hcreation rfl (by decide))
  | some arg =>
      obtain ⟨found, rest, rfl, hrest⟩ := Program.returns_question_bind.mp h
      obtain ⟨account, -, hdone⟩ := returns_withAccount.mp hrest
      have hcalls : ∀ call ∈ [(⟨.findPc arg, found⟩ : Call)], call.1.loads = false :=
        List.forall_mem_cons.mpr ⟨rfl, List.forall_mem_nil _⟩
      have hedge : ∀ {state : PlayerState}, (pure (player, state) :
          Dialog (Player × PlayerState)).Returns rest (player', newState) →
          (state = .showAccountMenu ∨ state.inCreation = true ∧ state ≠ .rerollAbilities) →
          Edge env player (some arg) (⟨.findPc arg, found⟩ :: rest) player' newState := by
        intro state h hcases
        obtain ⟨rfl, heq⟩ := Program.returns_pure.mp h
        obtain ⟨rfl, rfl⟩ := Prod.mk.inj heq
        rcases hcases with rfl | ⟨hnew, hne⟩
        · exact .returned (.inr hcreation) hcalls
        · exact .creates hcreation hcalls hnew hne
      cases found with
      | none => exact hedge hdone (.inr ⟨rfl, by decide⟩)
      | some pc =>
          dsimp only at hdone
          split_ifs at hdone with hid hcomplete
          · exact hedge hdone (.inr ⟨rfl, by decide⟩)
          · exact hedge hdone (.inl rfl)
          · exact hedge hdone (.inr ⟨rfl, by decide⟩)

theorem edge_doChooseSex (hstate : player.state = .chooseSex)
    (h : (doChooseSex player arg).Returns calls (player', newState)) :
    Edge env player arg calls player' newState := by
  have hcreation : player.state.inCreation = true := by rw [hstate]; rfl
  cases arg with
  | none => exact edge_pure h (edge_creates hcreation rfl (by decide))
  | some arg =>
      unfold doChooseSex at h
      dsimp only at h
      split at h
      all_goals exact edge_pure h (edge_creates hcreation rfl (by decide))

theorem edge_handler {dialog : Dialog (Player × PlayerState)} (hused : player.state.used = true)
    (hhandler : handler env moment player arg player.state = some dialog)
    (h : dialog.Returns calls (player', newState)) :
    Edge env player arg calls player' newState := by
  cases hstate : player.state <;> rw [hstate] at hused hhandler <;> cases hused <;> cases hhandler
  case initial => exact edge_pure h (.greeted hstate)
  case getEmail => exact edge_doGetEmail hstate h
  case confirmEmail => exact edge_doConfirmEmail hstate h
  case getNewUserPassword => exact edge_doGetNewUserPassword hstate h
  case confirmPassword => exact edge_doConfirmPassword hstate h
  case getPassword => exact edge_doGetPassword hstate h
  case chooseAnsi => exact edge_doChooseAnsi hstate h
  case showAccountMenu => exact edge_doShowAccountMenu hstate h
  case getNewPassword => exact edge_doGetNewPassword hstate h
  case confirmNewPassword => exact edge_doConfirmNewPassword hstate h
  case enterConfirmCode => exact edge_doEnterConfirmCode hstate h
  case showCreationMenu => exact edge_doShowCreationMenu hstate h
  case chooseName => exact edge_doChooseName hstate h
  case chooseSex => exact edge_doChooseSex hstate h
  case showMotd | showCredits => exact edge_pure h (edge_menu (by rw [hstate]; rfl) rfl)
  case showPlayerList => exact edge_pure h (.returned (.inl hstate) (List.forall_mem_nil _))
  all_goals exact edge_pure h (edge_creates (by rw [hstate]; rfl) rfl (by decide))

/-! ## One line -/

/-- A player has entered a state. -/
structure Entered (player : Player) (newState : PlayerState) (player' : Player) : Prop where
  account : player'.account = player.account
  state : player'.state = newState
  shown : player'.shown = newState.prompt player.shown

theorem enterState_cases {now : ℕ} (hne : newState ≠ .resendConfirmEmail)
    (h : (enterState env now player newState).Returns calls player') :
    calls = [] ∧ Entered player newState player' := by
  obtain ⟨first, entered, rest, rfl, henter, hrest⟩ := Program.returns_bind.mp h
  obtain ⟨rfl, rfl⟩ := Program.returns_pure.mp hrest
  rw [List.append_nil]
  have hpure : ∀ {shown : Player}, (pure shown : Dialog Player).Returns first entered →
      shown.account = player.account → shown.shown = newState.prompt player.shown →
      first = [] ∧ Entered player newState { entered with state := newState } := by
    intro shown h haccount hshown
    obtain ⟨rfl, rfl⟩ := Program.returns_pure.mp h
    exact ⟨rfl, haccount, rfl, hshown⟩
  cases newState with
  | resendConfirmEmail => exact absurd rfl hne
  | confirmEmail | getNewUserPassword | showAccountMenu | showPlayerList =>
      obtain ⟨account, -, henter⟩ := returns_withAccount.mp henter
      exact hpure henter rfl rfl
  | _ => exact hpure henter rfl rfl

theorem Edge.ne_resend (h : Edge env player arg calls player' newState) :
    newState ≠ .resendConfirmEmail := by
  cases h with
  | menu _ _ _ hnew =>
      rintro rfl
      cases hnew
  | admitted _ _ _ hnew => rcases hnew with rfl | rfl <;> exact PlayerState.noConfusion
  | creates _ _ hnew _ =>
      rintro rfl
      cases hnew
  | _ => exact PlayerState.noConfusion

theorem Edge.used (h : Edge env player arg calls player' newState) (hne : newState ≠ .noChange) :
    newState.used = true := by
  cases h with
  | same _ => exact absurd rfl hne
  | menu _ _ _ hnew => cases newState <;> first | rfl | cases hnew
  | admitted _ _ _ hnew => rcases hnew with rfl | rfl <;> rfl
  | creates _ _ hnew _ => cases newState <;> first | rfl | cases hnew
  | _ => rfl

theorem Edge.noChange (h : Edge env player arg calls player' .noChange) :
    player' = player ∧ calls = [] ∧ player.state.repeats = true := by
  cases h with
  | same hstate => exact ⟨rfl, rfl, hstate⟩
  | menu _ _ _ hnew => cases hnew
  | admitted _ _ _ hnew => rcases hnew with hnew | hnew <;> cases hnew
  | creates _ _ hnew _ => cases hnew

/-- A line leaves the player where it is or takes it along an edge. -/
theorem machine_cases {line : Option Text} (hused : player.state.used = true)
    (h : (loginStateMachine env moment player line).Returns calls player') :
    (player' = player ∧ calls = [] ∧ player.state.repeats = true) ∨
      ∃ player₁ newState, Edge env player (skipSpaces line) calls player₁ newState ∧
        newState ≠ .noChange ∧ Entered player₁ newState player' := by
  unfold loginStateMachine at h
  split at h
  · obtain ⟨rfl, hentered⟩ := enterState_cases PlayerState.noConfusion h
    exact .inr ⟨player, .disconnect, .leaves, PlayerState.noConfusion, hentered⟩
  · next dialog hhandler =>
      obtain ⟨first, ⟨player₁, newState⟩, rest, rfl, hdialog, hrest⟩ := Program.returns_bind.mp h
      have hedge := edge_handler hused hhandler hdialog
      dsimp only at hrest
      split_ifs at hrest with hsame
      · obtain ⟨rfl, rfl⟩ := Program.returns_pure.mp hrest
        rw [List.append_nil]
        rw [hsame] at hedge
        exact .inl hedge.noChange
      · obtain ⟨rfl, hentered⟩ := enterState_cases hedge.ne_resend hrest
        rw [List.append_nil]
        exact .inr ⟨player₁, newState, hedge, hsame, hentered⟩

/-! ## Runs -/

/-- A line that a session got: who got it, and the calls it led to. -/
structure Entry where
  player : Player
  moment : Moment
  line : Option Text
  calls : List Call

variable (env) in
/-- A session with the lines it got, the last one first. -/
inductive Session : List Entry → Player → Prop
  | connected : Session [] .create
  | line {past : List Entry} {player player' : Player} {moment : Moment} {line : Option Text}
      {calls : List Call} (h : Session past player)
      (hline : (loginStateMachine env moment player line).Returns calls player') :
      Session (⟨player, moment, line, calls⟩ :: past) player'

/-- A session is always in a used state. -/
theorem Session.used {past : List Entry} (h : Session env past player) :
    player.state.used = true := by
  induction h with
  | connected => rfl
  | line h hline ih =>
      rcases machine_cases ih hline with ⟨rfl, -, -⟩ | ⟨player₁, newState, hedge, hne, hentered⟩
      · exact ih
      · rw [hentered.state]
        exact hedge.used hne

end Edges

end HavokMud.Login
