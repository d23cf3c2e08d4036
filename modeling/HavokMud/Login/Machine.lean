import HavokMud.BTree.Keys
import HavokMud.Interaction.Programs
import HavokMud.Mysql.Queries

/-!
# The login state machine

`LoginStateMachine` feeds a line to the handler of the player's state and enters the state that the
handler returns.  Handlers and enter functions work on the player's own copy of the account row and
call the database in between, so they are programs that ask.  The calls that touch neither accounts
nor states are left out, and so are the texts that are sent to the player.
-/

namespace HavokMud.Login

open Interaction BTree Mysql

/-- `PlayerState_t`. -/
inductive PlayerState
  | initial
  | getEmail
  | confirmEmail
  | getNewUserPassword
  | confirmPassword
  | getPassword
  | chooseAnsi
  | showMotd
  | showWmotd
  | showCredits
  | disconnect
  | pressEnter
  | showAccountMenu
  | showPlayerList
  | getNewPassword
  | confirmNewPassword
  | enterConfirmCode
  | resendConfirmEmail
  | showCreationMenu
  | chooseName
  | chooseSex
  | chooseRace
  | chooseClass
  | chooseStats
  | chooseAlignment
  | rerollAbilities
  | showLoginMenu
  | waitForAuth
  | editExtraDescr
  | deleteUser
  | playing
  | noChange
deriving DecidableEq

/-- `PlayerAccount_t`.  A NULL `confcode` and an empty one are not told apart anywhere. -/
structure PlayerAccount where
  id : ℤ
  email : Option Text
  pwd : Option Text
  newpwd : Option Text
  ansi : Bool
  confirmed : Bool
  confcode : Text
deriving DecidableEq

/-- What `CREATE` makes of an account, with its e-mail. -/
def PlayerAccount.create (email : Text) : PlayerAccount :=
  ⟨0, some email, none, none, false, false, []⟩

/-- The fields of `player->charData` that the creation menu reads. -/
structure CharData where
  classes : ℤ
  sex : ℤ
  alignment : ℤ
  con : ℤ
deriving DecidableEq

/-- A player at the login queue.  The last field is the state whose enter function ran last. -/
structure Player where
  state : PlayerState
  account : Option PlayerAccount
  charData : CharData
  shown : PlayerState
deriving DecidableEq

/-- A player whose connection was just accepted. -/
def Player.create : Player :=
  ⟨.initial, none, ⟨0, 0, 0, 0⟩, .initial⟩

/-! ## Calls of the database -/

/-- A pc that `pb_find_pc` found, with the attribute `complete` of the loaded pc. -/
structure Found where
  accountId : ℤ
  complete : Bool

/-- The calls that read or write accounts, or decide on the next state. -/
inductive Op
  | loadAccount (email : Text)
  | loadAccountByConfirm (code : Text)
  | saveAccount (account : PlayerAccount)
  | findPc (name : Text)

abbrev Op.Ans : Op → Type
  | .loadAccount _ => Option Account
  | .loadAccountByConfirm _ => Option Account
  | .saveAccount _ => ℤ
  | .findPc _ => Option Found

/-- Code between two waits for input. -/
abbrev Dialog :=
  Program Op Op.Ans

/-- The copy of a row. -/
def PlayerAccount.ofRow (row : Account) : PlayerAccount :=
  ⟨row.id, some row.email, some row.passwd, none, row.ansi, row.confirmed, row.confcode⟩

/-- `pb_load_account`. -/
def pbLoadAccount : Option Text → Dialog (Option PlayerAccount)
  | none => pure none
  | some email => do
      let row ← Program.question (Op.loadAccount email)
      pure (Option.map PlayerAccount.ofRow row)

/-- `pb_load_account_by_confirm`. -/
def pbLoadAccountByConfirm : Option Text → Dialog (Option PlayerAccount)
  | none => pure none
  | some code => do
      let row ← Program.question (Op.loadAccountByConfirm code)
      pure (Option.map PlayerAccount.ofRow row)

/-- `pb_save_account`, which takes over the id of the response. -/
def pbSaveAccount (account : PlayerAccount) : Dialog PlayerAccount := do
  let id ← Program.question (Op.saveAccount account)
  pure { account with id := id }

/-! ## The outside -/

/-- `parseEmail` with its regular expression, `MD5Password`, and the words that `opiebtoe` makes of
the digest of an e-mail and a time. -/
structure Environment where
  parseEmail : Text → Option Text
  md5Password : Text → Text → Text
  confcode : Option Text → ℕ → Text

def hexDigit (n : UInt8) : UInt8 :=
  if n < 10 then 48 + n else 87 + n

/-- The digits that `MD5Password` writes for a digest. -/
def hexDigits (md : List UInt8) : Text :=
  md.flatMap fun byte : UInt8 ↦ [hexDigit (byte >>> 4), hexDigit (byte &&& 15)]

/-- `MD5Password` in a game realm. -/
def digestPassword (md5 : Text → Vector UInt8 16) (realm email passwd : Text) : Text :=
  hexDigits (md5 (email ++ 58 :: realm ++ 58 :: passwd)).toList

theorem length_digestPassword (md5 : Text → Vector UInt8 16) (realm email passwd : Text) :
    (digestPassword md5 realm email passwd).length = 32 := by
  unfold digestPassword hexDigits
  rw [List.length_flatMap]
  simp

/-- The environment of a game realm. -/
def Environment.ofDigest (parseEmail : Text → Option Text) (md5 : Text → Vector UInt8 16)
    (realm : Text) (confcode : Option Text → ℕ → Text) : Environment :=
  ⟨parseEmail, digestPassword md5 realm, confcode⟩

/-- The e-mail ab@c.de. -/
def someEmail : Text :=
  [97, 98, 64, 99, 46, 100, 101]

/-- What `MD5Password` makes of it and the password p. -/
def somePasswd : Text :=
  [98, 50, 52, 102, 51, 102, 57, 50, 98, 53, 99, 53, 57, 50, 55, 99, 97, 48, 56, 50, 97,
    56, 102, 99, 100, 52, 53, 51, 55, 48, 51, 97]

/-- The code PA HART WHOA WOW VERB MAGI, which it gets at time 0. -/
def someCode : Text :=
  [80, 65, 32, 72, 65, 82, 84, 32, 87, 72, 79, 65, 32, 87, 79, 87, 32, 86, 69, 82, 66, 32,
    77, 65, 71, 73]

/-- What is made of this e-mail and this password. -/
def plainEnvironment : Environment :=
  .ofDigest some
    (fun _ ↦ #v[178, 79, 63, 146, 181, 197, 146, 124, 160, 130, 168, 252, 212, 83, 112, 58])
    [104, 97, 118, 111, 107, 109, 117, 100] (fun _ _ ↦ someCode)

/-- What a handler reads of the outside: the time, `SiteLock` and `SYS_WIZLOCKED`. -/
structure Moment where
  now : ℕ
  siteLock : Bool
  wizLocked : Bool

def isSpace (c : UInt8) : Bool :=
  c = 32 ∨ (9 ≤ c ∧ c ≤ 13)

/-- `skip_spaces`, which returns NULL for what would be empty. -/
def skipSpaces (string : Option Text) : Option Text :=
  string.bind fun string ↦
    let string := string.dropWhile isSpace
    if string = [] then none else some string

/-- `tolower(*arg)`. -/
def firstLower (arg : Text) : UInt8 :=
  toLower (arg.headD 0)

/-- `strncmp` of two passwords is zero. -/
def samePassword (pwd other : Text) : Bool :=
  pwd.take 32 = other.take 32

section Machine

variable (env : Environment)

/-- `MD5Password`, which is NULL if one of its arguments is. -/
def md5Password (email passwd : Option Text) : Option Text :=
  email.bind fun email ↦ passwd.map (env.md5Password email)

/-- `CreateSendConfirmEmail`.  An account with a code only gets its e-mail again. -/
def createSendConfirmEmail (now : ℕ) (account : PlayerAccount) : Dialog PlayerAccount :=
  if account.confcode = [] then
    pbSaveAccount { account with
      confcode := env.confcode account.email now
      confirmed := false }
  else pure account

/-! ## Entering a state -/

/-- Code that follows `player->account`. -/
def withAccount {α : Type} (player : Player) (f : PlayerAccount → Dialog α) : Dialog α :=
  match player.account with
  | none => .fault
  | some account => f account

/-- The column `enter` of `loginStates`. -/
def enterFunction (now : ℕ) (player : Player) (newState : PlayerState) : Dialog Player :=
  match newState with
  | .initial | .waitForAuth | .playing | .noChange => pure player
  | .confirmEmail | .getNewUserPassword | .showAccountMenu | .showPlayerList =>
      withAccount player fun _ ↦ pure { player with shown := newState }
  | .resendConfirmEmail =>
      withAccount player fun account ↦ do
        let account ← createSendConfirmEmail env now account
        pure { player with
          account := some account
          shown := newState }
  | .rerollAbilities =>
      -- it enters the creation menu itself, before its own state is set
      pure { player with
        state := .showCreationMenu
        shown := .showCreationMenu }
  | .chooseRace =>
      pure { player with
        charData := { player.charData with classes := 0 }
        shown := newState }
  | .chooseClass =>
      pure { player with
        charData := { player.charData with
          alignment := 0
          con := 0 }
        shown := newState }
  | _ => pure { player with shown := newState }

/-- `EnterState`. -/
def enterState (now : ℕ) (player : Player) (newState : PlayerState) : Dialog Player := do
  let player ← enterFunction env now player newState
  pure { player with state := newState }

/-! ## The handlers -/

def doGetEmail (moment : Moment) (player : Player) : Option Text → Dialog (Player × PlayerState)
  | none =>
      pure ({ player with
        account := player.account.map fun account ↦ { account with email := none } }, .disconnect)
  | some arg =>
      match env.parseEmail arg with
      | none => pure (player, .noChange)
      | some email =>
          if moment.siteLock then pure (player, .disconnect)
          else do
            let account ← pbLoadAccount (some email)
            match account with
            | some account => pure ({ player with account := some account }, .getPassword)
            | none =>
                if moment.wizLocked then pure ({ player with account := none }, .disconnect)
                else pure ({ player with account := some (.create email) }, .confirmEmail)

def doConfirmEmail (player : Player) : Option Text → Dialog (Player × PlayerState)
  | none => pure (player, .noChange)
  | some arg =>
      match firstLower arg with
      | 121 => pure (player, .getNewUserPassword)
      | 110 => pure (player, .getEmail)
      | _ => pure (player, .noChange)

def doGetNewUserPassword (player : Player) : Option Text → Dialog (Player × PlayerState)
  | none => pure (player, .getNewUserPassword)
  | some arg =>
      if 10 < arg.length then pure (player, .getNewUserPassword)
      else withAccount player fun account ↦
        pure ({ player with
          account := some { account with
            pwd := md5Password env account.email (some arg) } }, .confirmPassword)

/-- The comparison of the password of a line with a stored one, which may not be NULL. -/
def comparePassword (account : PlayerAccount) (arg : Text) (stored : Option Text)
    (same : Dialog (Player × PlayerState)) (other : Dialog (Player × PlayerState)) :
    Dialog (Player × PlayerState) :=
  match md5Password env account.email (some arg), stored with
  | some temppasswd, some pwd => if samePassword temppasswd pwd then same else other
  | _, _ => .fault

def doConfirmPassword (player : Player) : Option Text → Dialog (Player × PlayerState)
  | none => pure (player, .getNewUserPassword)
  | some arg => withAccount player fun account ↦
      comparePassword env account arg account.pwd (pure (player, .chooseAnsi))
        (pure (player, .getNewUserPassword))

def doGetPassword (player : Player) : Option Text → Dialog (Player × PlayerState)
  | none => pure (player, .disconnect)
  | some arg => withAccount player fun account ↦
      comparePassword env account arg account.pwd (pure (player, .showAccountMenu))
        (pure (player, .disconnect))

/-- The two answers of `do_state_choose_ansi`. -/
def chooseColour (moment : Moment) (player : Player) (ansi : Bool) :
    Dialog (Player × PlayerState) :=
  withAccount player fun account ↦ do
    let account ← pbSaveAccount { account with ansi := ansi }
    let player := { player with account := some account }
    let player ← if account.confcode = [] then enterState env moment.now player .resendConfirmEmail
      else pure player
    pure (player, .showAccountMenu)

def doChooseAnsi (moment : Moment) (player : Player) : Option Text → Dialog (Player × PlayerState)
  | none => pure (player, .noChange)
  | some arg =>
      match firstLower arg with
      | 121 => chooseColour env moment player true
      | 110 => chooseColour env moment player false
      | _ => pure (player, .noChange)

/-- A choice of the account menu that only a confirmed account has. -/
def ifConfirmed (player : Player) (newState : PlayerState) : Dialog (Player × PlayerState) :=
  withAccount player fun account ↦
    pure (player, if account.confirmed then newState else .showAccountMenu)

def doShowAccountMenu (moment : Moment) (player : Player) :
    Option Text → Dialog (Player × PlayerState)
  | none => pure (player, .showAccountMenu)
  | some arg =>
      match firstLower arg with
      | 49 => pure (player, .chooseAnsi)
      | 50 => pure (player, .getNewPassword)
      | 51 => pure (player, .showMotd)
      | 52 => pure (player, .showCredits)
      | 53 => ifConfirmed player .showPlayerList
      | 54 => ifConfirmed player .showCreationMenu
      | 55 => ifConfirmed player .playing
      | 101 => withAccount player fun account ↦
          pure (player, if account.confirmed then .showAccountMenu else .enterConfirmCode)
      | 114 => withAccount player fun account ↦ do
          let player ← if account.confirmed then pure player
            else enterState env moment.now player .resendConfirmEmail
          pure (player, .showAccountMenu)
      | 113 => pure (player, .disconnect)
      | _ => pure (player, .showAccountMenu)

def doGetNewPassword (player : Player) : Option Text → Dialog (Player × PlayerState)
  | none => pure (player, .getNewPassword)
  | some arg =>
      if 10 < arg.length then pure (player, .getNewPassword)
      else withAccount player fun account ↦
        pure ({ player with
          account := some { account with
            newpwd := md5Password env account.email (some arg) } }, .confirmNewPassword)

def doConfirmNewPassword (player : Player) : Option Text → Dialog (Player × PlayerState)
  | none => pure (player, .showAccountMenu)
  | some arg => withAccount player fun account ↦
      comparePassword env account arg account.newpwd
        (do
          let account ← pbSaveAccount { account with
            pwd := account.newpwd
            newpwd := none }
          pure ({ player with account := some account }, .showAccountMenu))
        (pure (player, .showAccountMenu))

/-- `strcasecmp` takes two texts for the same if they fold to the same. -/
def doEnterConfirmCode (player : Player) : Option Text → Dialog (Player × PlayerState)
  | none => pure (player, .showAccountMenu)
  | some arg => withAccount player fun account ↦ do
      let account ←
        if account.confcode ≠ [] ∧ fold arg = fold account.confcode then
          pbSaveAccount { account with
            confirmed := true
            confcode := [] }
        else pbSaveAccount { account with confirmed := false }
      pure ({ player with account := some account }, .showAccountMenu)

def doShowCreationMenu (player : Player) : Option Text → Dialog (Player × PlayerState)
  | none => pure (player, .showCreationMenu)
  | some arg =>
      match firstLower arg with
      | 49 => pure (player, .chooseName)
      | 114 => pure (player, .rerollAbilities)
      | 50 => pure (player, .chooseSex)
      | 51 => pure (player, .chooseRace)
      | 52 => pure (player, .chooseClass)
      | 53 => pure (player, if player.charData.classes ≠ 0 then .chooseStats else .noChange)
      | 54 => pure (player, .chooseAlignment)
      | 100 => pure (player, if player.charData.sex = 0 ∨ player.charData.alignment = 0 ∨
          player.charData.con = 0 then .showCreationMenu else .showAccountMenu)
      | _ => pure (player, .showCreationMenu)

def doChooseName (player : Player) : Option Text → Dialog (Player × PlayerState)
  | none => pure (player, .showCreationMenu)
  | some arg => do
      let found ← Program.question (Op.findPc arg)
      withAccount player fun account ↦
        match (found : Option Found) with
        | none => pure (player, .showCreationMenu)
        | some pc =>
            if pc.accountId ≠ account.id then pure (player, .chooseName)
            else pure (player, if pc.complete then .showAccountMenu else .showCreationMenu)

def doChooseSex (player : Player) : Option Text → Dialog (Player × PlayerState)
  | none => pure (player, .chooseSex)
  | some arg =>
      match firstLower arg with
      | 109 | 102 | 110 => pure (player, .showCreationMenu)
      | _ => pure (player, .chooseSex)

/-- The column `handler` of `loginStates`. -/
def handler (moment : Moment) (player : Player) (arg : Option Text) :
    PlayerState → Option (Dialog (Player × PlayerState))
  | .initial => some (pure (player, .getEmail))
  | .getEmail => some (doGetEmail env moment player arg)
  | .confirmEmail => some (doConfirmEmail player arg)
  | .getNewUserPassword => some (doGetNewUserPassword env player arg)
  | .confirmPassword => some (doConfirmPassword env player arg)
  | .getPassword => some (doGetPassword env player arg)
  | .chooseAnsi => some (doChooseAnsi env moment player arg)
  | .showMotd | .showWmotd | .showCredits | .showPlayerList =>
      some (pure (player, .showAccountMenu))
  | .showAccountMenu => some (doShowAccountMenu env moment player arg)
  | .getNewPassword => some (doGetNewPassword env player arg)
  | .confirmNewPassword => some (doConfirmNewPassword env player arg)
  | .enterConfirmCode => some (doEnterConfirmCode player arg)
  | .showCreationMenu => some (doShowCreationMenu player arg)
  | .chooseName => some (doChooseName player arg)
  | .chooseSex => some (doChooseSex player arg)
  | .chooseRace | .chooseClass | .chooseStats | .chooseAlignment | .rerollAbilities | .waitForAuth
  | .deleteUser => some (pure (player, .showCreationMenu))
  | .pressEnter | .showLoginMenu | .editExtraDescr => some (pure (player, .showLoginMenu))
  | .disconnect | .resendConfirmEmail | .playing | .noChange => none

/-- `LoginStateMachine`. -/
def loginStateMachine (moment : Moment) (player : Player) (line : Option Text) : Dialog Player :=
  match handler env moment player (skipSpaces line) player.state with
  | none => enterState env moment.now player .disconnect
  | some dialog => do
      let (player, newState) ← dialog
      if newState = .noChange then pure player else enterState env moment.now player newState

/-! ## The web service -/

/-- `webServiceLogin`. -/
def webServiceLogin (email passwd : Option Text) : Dialog Unit := do
  let account ← pbLoadAccount email
  match account with
  | none => pure ()
  | some account =>
      match md5Password env email passwd, account.pwd with
      | some _, some _ => pure ()
      | _, _ => .fault

/-- `webServiceRegister`.  `memstrdup` does not take NULL. -/
def webServiceRegister (now : ℕ) (email passwd : Option Text) : Dialog Unit := do
  let account ← pbLoadAccount email
  match account, email with
  | some _, _ => pure ()
  | none, none => .fault
  | none, some email =>
      let _ ← createSendConfirmEmail env now { PlayerAccount.create email with
        pwd := md5Password env (some email) passwd
        ansi := true }
      pure ()

/-- `webServiceConfirm`. -/
def webServiceConfirm (code : Option Text) : Dialog Unit := do
  let account ← pbLoadAccountByConfirm code
  match account with
  | none => pure ()
  | some account =>
      let _ ← pbSaveAccount { account with
        confirmed := true
        confcode := [] }
      pure ()

end Machine

end HavokMud.Login
