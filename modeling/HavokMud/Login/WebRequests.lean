import HavokMud.Json.Values
import HavokMud.Login.Interleaving

/-!
# The payloads of web requests

`webServiceLogin` and `webServiceRegister` with the JSON object that they get and the response that
they send.  A member that is there but is no string has a NULL `valuestring`, which `memstrdup` does
not take.
-/

namespace HavokMud.Login

open Interaction BTree Mysql

/-! ## The handlers -/

namespace WebService

/-- The members of a request. -/
def emailName : Text :=
  [101, 109, 97, 105, 108]

def passwdName : Text :=
  [112, 97, 115, 115, 119, 100]

def remoteipName : Text :=
  [114, 101, 109, 111, 116, 101, 105, 112]

/-- The member of a response that tells how the request went. -/
def successName : Text :=
  [115, 117, 99, 99, 101, 115, 115]

/-- `cJSON_GetObjectItem`.  The elements of an array have no names. -/
def getObjectItem (req : Json.Value) (name : Text) : Option Json.Value :=
  match req with
  | .object members =>
      (members.find? fun member ↦ strcasecmp member.1.val name = 0).map Prod.snd
  | _ => none

/-- `memstrdup` of the string of a member, if there is such a member. -/
def duplicate (item : Option Json.Value) : Dialog (Option Text) :=
  match item with
  | none => pure none
  | some item =>
      match item.valuestring with
      | none => .fault
      | some string => pure (some string.val)

abbrev Member :=
  Json.CString × Json.Value

def member (name : Text) (value : Json.Value) : Member :=
  (.ofBytes name, value)

def ofBool (value : Bool) : Json.Value :=
  if value then .true else .false

/-- The member `details`. -/
def accountDetails (account : PlayerAccount) (email : Text) : Member :=
  member [100, 101, 116, 97, 105, 108, 115] <| .object
    [member [105, 100] (.number account.id), member emailName (.string (.ofBytes email)),
      member [97, 110, 115, 105] (ofBool account.ansi),
      member [99, 111, 110, 102, 105, 114, 109, 101, 100] (ofBool account.confirmed)]

/-- `addAccountDetails`, which duplicates the e-mail. -/
def addAccountDetails (account : PlayerAccount) : Dialog Member :=
  match account.email with
  | none => .fault
  | some email => pure (accountDetails account email)

/-- `sendJSONResponse`, which takes the length of what `cJSON_Print` returns. -/
def sendJSONResponse (resp : List Member) : Dialog (List Json.Value) :=
  if Json.fails (.object resp) then .fault else pure [.object resp]

section Handlers

variable (env : Environment)

/-- `webServiceLogin` with the payload, and with the responses that it sends. -/
def webServiceLogin (payload : Option Json.Value) : Dialog (List Json.Value) :=
  match payload with
  | none => pure []
  | some req => do
      let email ← duplicate (getObjectItem req emailName)
      let passwd ← duplicate (getObjectItem req passwdName)
      let _ ← duplicate (getObjectItem req remoteipName)
      let account ← pbLoadAccount email
      match account with
      | none => sendJSONResponse [member successName .false]
      | some account =>
          match md5Password env email passwd, account.pwd with
          | some md5, some pwd =>
              if samePassword md5 pwd then do
                let details ← addAccountDetails account
                sendJSONResponse [details, member successName .true]
              else sendJSONResponse [member successName .false]
          | _, _ => .fault

/-- `webServiceRegister` with the payload, and with the responses that it sends. -/
def webServiceRegister (now : ℕ) (payload : Option Json.Value) : Dialog (List Json.Value) :=
  match payload with
  | none => pure []
  | some req => do
      let email ← duplicate (getObjectItem req emailName)
      let passwd ← duplicate (getObjectItem req passwdName)
      let _ ← duplicate (getObjectItem req remoteipName)
      let account ← pbLoadAccount email
      match account, email with
      | some _, _ => sendJSONResponse [member successName .false]
      | none, none => .fault
      | none, some email => do
          let _ ← createSendConfirmEmail env now { PlayerAccount.create email with
            pwd := md5Password env (some email) passwd
            ansi := true }
          sendJSONResponse [member successName .true]

end Handlers

/-! ## Members -/

/-- The string of a member. -/
def stringOf (req : Json.Value) (name : Text) : Option Text :=
  ((getObjectItem req name).bind Json.Value.valuestring).map Subtype.val

/-- A member is absent or a string. -/
def Readable (req : Json.Value) (name : Text) : Prop :=
  ∀ item, getObjectItem req name = some item → item.valuestring ≠ none

/-- The response says that the request was successful. -/
def Succeeds (resp : Json.Value) : Prop :=
  getObjectItem resp successName = some .true

variable {req : Json.Value} {name : Text}

theorem duplicate_of_readable (h : Readable req name) :
    duplicate (getObjectItem req name) = pure (stringOf req name) := by
  unfold stringOf
  cases hitem : getObjectItem req name with
  | none => rfl
  | some item =>
      obtain ⟨string, hstring⟩ := Option.ne_none_iff_exists'.mp (h item hitem)
      simp [duplicate, hstring]

theorem duplicate_of_not_readable (h : ¬ Readable req name) :
    duplicate (getObjectItem req name) = .fault := by
  unfold Readable at h
  push Not at h
  obtain ⟨item, hitem, hstring⟩ := h
  rw [hitem]
  simp [duplicate, hstring]

theorem fails_ofBool (value : Bool) : Json.fails (ofBool value) = false := by
  cases value <;> rfl

/-- The response to a successful login can be printed. -/
theorem sendJSONResponse_details (row : Account) : ∃ resp, Succeeds resp ∧
    (do
      let details ← addAccountDetails (.ofRow row)
      sendJSONResponse [details, member successName .true]) = pure [resp] := by
  let details := accountDetails (.ofRow row) row.email
  have hfails : Json.fails (.object [details, member successName .true]) = false := by
    simp [details, accountDetails, Json.fails, Json.anyMemberFails, member, fails_ofBool]
  exact ⟨.object [details, member successName .true], rfl, if_neg (Bool.eq_false_iff.mp hfails)⟩

/-! ## Runs -/

section Runs

variable (collate : Text → Text) (env : Environment) (db : Database)

/-- The row that `pb_load_account` finds. -/
def rowOf (email : Text) : Option Account :=
  db.accounts.find? fun row ↦ collate row.email = collate email

/-- A handler runs on the tables. -/
def runHandler {α : Type} (handler : Dialog α) : Option (Database × α) :=
  handler.runOn (fun db op ↦ answer collate db none op) db

/-- The response of a request that has no success. -/
def refusal : Json.Value :=
  .object [member successName .false]

theorem not_succeeds_refusal : ¬ Succeeds refusal := by
  intro h
  cases h

theorem sendJSONResponse_refusal :
    sendJSONResponse [member successName .false] = pure [refusal] := rfl

variable {collate env db} {α β : Type}

theorem runHandler_pure_bind (value : α) (f : α → Dialog β) :
    runHandler collate db (pure value >>= f) = runHandler collate db (f value) := rfl

theorem runHandler_fault_bind (f : α → Dialog β) :
    runHandler collate db (.fault >>= f) = none := rfl

theorem runHandler_pbLoadAccount_bind (email : Option Text)
    (f : Option PlayerAccount → Dialog β) :
    runHandler collate db (pbLoadAccount email >>= f) =
      runHandler collate db (f ((email.bind (rowOf collate db)).map .ofRow)) := by
  cases email with
  | none => rfl
  | some email =>
      change _ = runHandler collate db (f ((db.accounts.find? fun row ↦
        collate row.email = collate email).map .ofRow))
      rw [← firstAccount_loadAccount]
      rfl

theorem runHandler_pbSaveAccount_bind (account : PlayerAccount) (f : PlayerAccount → Dialog β) :
    runHandler collate db (pbSaveAccount account >>= f) = account.row.bind fun row ↦
      runHandler collate (written db row).1 (f { account with id := (written db row).2 }) := by
  cases hrow : account.row with
  | none =>
      unfold runHandler pbSaveAccount
      rw [Program.runOn_bind, Program.runOn_bind, Program.runOn_question]
      simp [answer, hrow]
  | some row =>
      unfold runHandler pbSaveAccount
      rw [Program.runOn_bind, Program.runOn_bind, Program.runOn_question]
      simp [answer, hrow, saveAccount_eq]

/-- An account without a code is saved once. -/
theorem runHandler_createSendConfirmEmail_bind {account : PlayerAccount}
    (hcode : account.confcode = []) (now : ℕ) (f : PlayerAccount → Dialog β) :
    runHandler collate db (createSendConfirmEmail env now account >>= f) =
      let coded := { account with
        confcode := env.confcode account.email now
        confirmed := false }
      coded.row.bind fun row ↦
        runHandler collate (written db row).1 (f { coded with id := (written db row).2 }) := by
  rw [createSendConfirmEmail, if_pos hcode, runHandler_pbSaveAccount_bind]

/-- All three members can be read. -/
def AllReadable (req : Json.Value) : Prop :=
  Readable req emailName ∧ Readable req passwdName ∧ Readable req remoteipName

/-- What both handlers do before they load the account. -/
theorem runHandler_members_of_readable (h : AllReadable req)
    (f : Option Text → Option Text → Dialog β) :
    (runHandler collate db do
      let email ← duplicate (getObjectItem req emailName)
      let passwd ← duplicate (getObjectItem req passwdName)
      let _ ← duplicate (getObjectItem req remoteipName)
      f email passwd) =
      runHandler collate db (f (stringOf req emailName) (stringOf req passwdName)) := by
  obtain ⟨hemail, hpasswd, hremote⟩ := h
  rw [duplicate_of_readable hemail, duplicate_of_readable hpasswd, duplicate_of_readable hremote]
  rfl

theorem runHandler_members_of_not_readable (h : ¬ AllReadable req)
    (f : Option Text → Option Text → Dialog β) :
    (runHandler collate db do
      let email ← duplicate (getObjectItem req emailName)
      let passwd ← duplicate (getObjectItem req passwdName)
      let _ ← duplicate (getObjectItem req remoteipName)
      f email passwd) = none := by
  by_cases hemail : Readable req emailName
  · rw [duplicate_of_readable hemail, runHandler_pure_bind]
    by_cases hpasswd : Readable req passwdName
    · rw [duplicate_of_readable hpasswd, runHandler_pure_bind]
      have hremote : ¬ Readable req remoteipName := fun hremote ↦ h ⟨hemail, hpasswd, hremote⟩
      rw [duplicate_of_not_readable hremote, runHandler_fault_bind]
    · rw [duplicate_of_not_readable hpasswd, runHandler_fault_bind]
  · rw [duplicate_of_not_readable hemail, runHandler_fault_bind]

/-! ## Login -/

variable (collate env db) in
/-- `webServiceLogin` answers, and it admits whoever has the password. -/
def LoginDecides (req : Json.Value) : Prop :=
  ∃ resp, runHandler collate db (webServiceLogin env (some req)) = some (db, [resp]) ∧
    (Succeeds resp ↔ ∃ email passwd row, stringOf req emailName = some email ∧
      stringOf req passwdName = some passwd ∧ rowOf collate db email = some row ∧
      (env.md5Password email passwd).take 32 = row.passwd.take 32)

variable (collate db) in
/-- The e-mail of the request has an account. -/
def HasAccount (req : Json.Value) : Prop :=
  ∃ email row, stringOf req emailName = some email ∧ rowOf collate db email = some row

theorem hasAccount_iff : HasAccount collate db req ↔
    (stringOf req emailName).bind (rowOf collate db) ≠ none := by
  rw [Option.ne_none_iff_exists']
  simp only [Option.bind_eq_some_iff]
  exact ⟨fun ⟨email, row, h⟩ ↦ ⟨row, email, h⟩, fun ⟨row, email, h⟩ ↦ ⟨email, row, h⟩⟩

theorem login_of_not_readable (h : ¬ AllReadable req) :
    runHandler collate db (webServiceLogin env (some req)) = none := by
  unfold webServiceLogin
  dsimp only
  rw [runHandler_members_of_not_readable h]

/-- No account is found. -/
theorem login_absent (h : AllReadable req) (haccount : ¬ HasAccount collate db req) :
    runHandler collate db (webServiceLogin env (some req)) = some (db, [refusal]) := by
  have hnone : (stringOf req emailName).bind (rowOf collate db) = none := by
    rwa [hasAccount_iff, not_not] at haccount
  unfold webServiceLogin
  dsimp only
  rw [runHandler_members_of_readable h, runHandler_pbLoadAccount_bind, hnone]
  rfl

variable {email passwd : Text} {row : Account}

/-- An account is found, and the handler goes on with a copy of its row. -/
theorem login_present (h : AllReadable req) (hemail : stringOf req emailName = some email)
    (hrow : rowOf collate db email = some row) :
    runHandler collate db (webServiceLogin env (some req)) = runHandler collate db
      (match md5Password env (some email) (stringOf req passwdName), some row.passwd with
      | some md5, some pwd =>
          if samePassword md5 pwd then do
            let details ← addAccountDetails (.ofRow row)
            sendJSONResponse [details, member successName .true]
          else sendJSONResponse [member successName .false]
      | _, _ => .fault) := by
  have hsome : (stringOf req emailName).bind (rowOf collate db) = some row := by
    rw [hemail, Option.bind_some, hrow]
  unfold webServiceLogin
  dsimp only
  rw [runHandler_members_of_readable h, runHandler_pbLoadAccount_bind, hsome, hemail]
  rfl

/-- `strncmp` follows the NULL pointer that `MD5Password` returns. -/
theorem login_without_passwd (h : AllReadable req) (haccount : HasAccount collate db req)
    (hpasswd : stringOf req passwdName = none) :
    runHandler collate db (webServiceLogin env (some req)) = none := by
  obtain ⟨email, row, hemail, hrow⟩ := haccount
  rw [login_present h hemail hrow, hpasswd]
  rfl

theorem login_with_passwd (h : AllReadable req) (hemail : stringOf req emailName = some email)
    (hrow : rowOf collate db email = some row) (hpasswd : stringOf req passwdName = some passwd) :
    ∃ resp, runHandler collate db (webServiceLogin env (some req)) = some (db, [resp]) ∧
      (Succeeds resp ↔ (env.md5Password email passwd).take 32 = row.passwd.take 32) := by
  rw [login_present h hemail hrow, hpasswd]
  change ∃ resp, runHandler collate db (if samePassword (env.md5Password email passwd) row.passwd
    then _ else _) = _ ∧ _
  by_cases hsame : (env.md5Password email passwd).take 32 = row.passwd.take 32
  · obtain ⟨resp, hsucceeds, hresp⟩ := sendJSONResponse_details row
    rw [if_pos (show samePassword _ _ = true from decide_eq_true hsame), hresp]
    exact ⟨resp, rfl, iff_of_true hsucceeds hsame⟩
  · rw [if_neg (by simpa [samePassword] using hsame), sendJSONResponse_refusal]
    exact ⟨refusal, rfl, iff_of_false not_succeeds_refusal hsame⟩

/-- Whoever logs in has to give a password if there is such an account. -/
theorem loginDecides_iff : LoginDecides collate env db req ↔
    AllReadable req ∧ (HasAccount collate db req → stringOf req passwdName ≠ none) := by
  constructor
  · rintro ⟨resp, hrun, -⟩
    have hreadable : AllReadable req := by
      by_contra hreadable
      rw [login_of_not_readable hreadable] at hrun
      cases hrun
    refine ⟨hreadable, fun haccount hpasswd ↦ ?_⟩
    rw [login_without_passwd hreadable haccount hpasswd] at hrun
    cases hrun
  · rintro ⟨hreadable, hpasswd⟩
    by_cases haccount : HasAccount collate db req
    · obtain ⟨passwd, hpasswd⟩ := Option.ne_none_iff_exists'.mp (hpasswd haccount)
      obtain ⟨email, row, hemail, hrow⟩ := haccount
      obtain ⟨resp, hrun, hresp⟩ := login_with_passwd hreadable hemail hrow hpasswd
      refine ⟨resp, hrun, hresp.trans ⟨?_, ?_⟩⟩
      · intro hsame
        exact ⟨email, passwd, row, hemail, hpasswd, hrow, hsame⟩
      · rintro ⟨email', passwd', row', hemail', hpasswd', hrow', hsame⟩
        obtain rfl := Option.some.inj (hemail.symm.trans hemail')
        obtain rfl := Option.some.inj (hpasswd.symm.trans hpasswd')
        obtain rfl := Option.some.inj (hrow.symm.trans hrow')
        exact hsame
    · refine ⟨refusal, login_absent hreadable haccount, iff_of_false not_succeeds_refusal ?_⟩
      rintro ⟨email, passwd, row, hemail, -, hrow, -⟩
      exact haccount ⟨email, row, hemail, hrow⟩

/-! ## Registration -/

variable (collate env db) in
/-- `webServiceRegister` answers, and it saves one account if the e-mail has none yet. -/
def RegisterDecides (now : ℕ) (req : Json.Value) : Prop :=
  ∃ db' resp, runHandler collate db (webServiceRegister env now (some req)) =
      some (db', [resp]) ∧
    (Succeeds resp ↔ stringOf req emailName ≠ none ∧ stringOf req passwdName ≠ none ∧
      ¬ HasAccount collate db req) ∧
    (Succeeds resp → ∃ email passwd row, stringOf req emailName = some email ∧
      stringOf req passwdName = some passwd ∧ row.email = email ∧
      row.passwd = env.md5Password email passwd ∧ db'.accounts = db.accounts ++ [row]) ∧
    (¬ Succeeds resp → db' = db)

theorem register_of_not_readable (h : ¬ AllReadable req) (now : ℕ) :
    runHandler collate db (webServiceRegister env now (some req)) = none := by
  unfold webServiceRegister
  dsimp only
  rw [runHandler_members_of_not_readable h]

/-- An account is found. -/
theorem register_present (h : AllReadable req) (haccount : HasAccount collate db req) (now : ℕ) :
    runHandler collate db (webServiceRegister env now (some req)) = some (db, [refusal]) := by
  obtain ⟨email, row, hemail, hrow⟩ := haccount
  have hsome : (stringOf req emailName).bind (rowOf collate db) = some row := by
    rw [hemail, Option.bind_some, hrow]
  unfold webServiceRegister
  dsimp only
  rw [runHandler_members_of_readable h, runHandler_pbLoadAccount_bind, hsome]
  rfl

/-- `memstrdup` does not take NULL. -/
theorem register_without_email (h : AllReadable req) (hemail : stringOf req emailName = none)
    (now : ℕ) : runHandler collate db (webServiceRegister env now (some req)) = none := by
  unfold webServiceRegister
  dsimp only
  rw [runHandler_members_of_readable h, runHandler_pbLoadAccount_bind, hemail]
  rfl

/-- What the handler saves. -/
def newRow (env : Environment) (now : ℕ) (email passwd : Text) : Account :=
  ⟨0, email, env.md5Password email passwd, true, false, env.confcode (some email) now⟩

/-- No account is found.  A new one without a password cannot be saved. -/
theorem register_absent (h : AllReadable req) (hemail : stringOf req emailName = some email)
    (haccount : ¬ HasAccount collate db req) (now : ℕ) :
    runHandler collate db (webServiceRegister env now (some req)) =
      (stringOf req passwdName).map fun passwd ↦
        ((written db (newRow env now email passwd)).1, [.object [member successName .true]]) := by
  have hnone : (stringOf req emailName).bind (rowOf collate db) = none := by
    rwa [hasAccount_iff, not_not] at haccount
  unfold webServiceRegister
  dsimp only
  rw [runHandler_members_of_readable h, runHandler_pbLoadAccount_bind, hnone, hemail]
  dsimp only [Option.map_none]
  cases stringOf req passwdName with
  | none =>
      rw [runHandler_createSendConfirmEmail_bind rfl]
      rfl
  | some passwd =>
      rw [runHandler_createSendConfirmEmail_bind rfl]
      rfl

/-- The new row is added to the table unless there is a row with its id. -/
theorem accounts_written_iff (hid : row.id = 0) :
    (∃ added : Account, added.email = row.email ∧ added.passwd = row.passwd ∧
      (written db row).1.accounts = db.accounts ++ [added]) ↔ ∀ old ∈ db.accounts, old.id ≠ 0 := by
  unfold written
  split_ifs with hfound
  · obtain ⟨old, hold, hsame⟩ := hfound
    refine iff_of_false ?_ fun hne ↦ hne old hold (hsame.trans hid)
    rintro ⟨added, -, -, hadded⟩
    have hlength := congrArg List.length hadded
    simp at hlength
  · refine iff_of_true ⟨{ row with id := db.nextAccount }, rfl, rfl, rfl⟩ ?_
    intro old hold hzero
    exact hfound ⟨old, hold, hzero.trans hid.symm⟩

/-- Whoever registers has to give an e-mail, and a password if the e-mail has no account. -/
theorem registerDecides_iff (now : ℕ) : RegisterDecides collate env db now req ↔
    AllReadable req ∧ stringOf req emailName ≠ none ∧ (¬ HasAccount collate db req →
      stringOf req passwdName ≠ none ∧ ∀ old ∈ db.accounts, old.id ≠ 0) := by
  constructor
  · rintro ⟨db', resp, hrun, hsucceeds, hsaved, -⟩
    have hreadable : AllReadable req := by
      by_contra hreadable
      rw [register_of_not_readable hreadable] at hrun
      cases hrun
    have hemail : stringOf req emailName ≠ none := by
      intro hemail
      rw [register_without_email hreadable hemail] at hrun
      cases hrun
    refine ⟨hreadable, hemail, fun haccount ↦ ?_⟩
    obtain ⟨email, hemail⟩ := Option.ne_none_iff_exists'.mp hemail
    rw [register_absent hreadable hemail haccount] at hrun
    obtain ⟨passwd, hpasswd, hpair⟩ := Option.map_eq_some_iff.mp hrun
    obtain ⟨rfl, hresp⟩ := Prod.mk.inj hpair
    obtain rfl := (List.cons.inj hresp).1
    refine ⟨by simp [hpasswd], ?_⟩
    obtain ⟨email', passwd', added, hemail', hpasswd', haddedemail, haddedpasswd, hadded⟩ :=
      hsaved rfl
    obtain rfl := Option.some.inj (hemail.symm.trans hemail')
    obtain rfl := Option.some.inj (hpasswd.symm.trans hpasswd')
    exact (accounts_written_iff rfl).mp ⟨added, haddedemail, haddedpasswd, hadded⟩
  · rintro ⟨hreadable, hemail, hnew⟩
    by_cases haccount : HasAccount collate db req
    · refine ⟨db, refusal, register_present hreadable haccount now, ?_, ?_, fun _ ↦ rfl⟩
      · exact iff_of_false not_succeeds_refusal fun hright ↦ hright.2.2 haccount
      · intro hsucceeds
        exact absurd hsucceeds not_succeeds_refusal
    · obtain ⟨hpasswd, hids⟩ := hnew haccount
      obtain ⟨email, hemail'⟩ := Option.ne_none_iff_exists'.mp hemail
      obtain ⟨passwd, hpasswd'⟩ := Option.ne_none_iff_exists'.mp hpasswd
      have hid : (newRow env now email passwd).id = 0 := rfl
      obtain ⟨added, haddedemail, haddedpasswd, hadded⟩ := (accounts_written_iff hid).mpr hids
      refine ⟨(written db (newRow env now email passwd)).1, .object [member successName .true],
        ?_, iff_of_true rfl ⟨hemail, hpasswd, haccount⟩, fun _ ↦ ?_, fun h ↦ absurd rfl h⟩
      · rw [register_absent hreadable hemail' haccount, hpasswd']
        rfl
      · exact ⟨email, passwd, added, hemail', hpasswd', haddedemail, haddedpasswd, hadded⟩

variable (collate env db) in
/-- The two handlers decide correctly on the payloads that have what they follow. -/
theorem webRequests_decide_iff (now : ℕ) (req : Json.Value) :
    (LoginDecides collate env db req ↔
      AllReadable req ∧ (HasAccount collate db req → stringOf req passwdName ≠ none)) ∧
    (RegisterDecides collate env db now req ↔
      AllReadable req ∧ stringOf req emailName ≠ none ∧ (¬ HasAccount collate db req →
        stringOf req passwdName ≠ none ∧ ∀ old ∈ db.accounts, old.id ≠ 0)) :=
  ⟨loginDecides_iff, registerDecides_iff now⟩

end Runs

/-! ## The handlers among the parties -/

/-- A party that serves such a request calls the database as `webServiceLogin` of the system
does. -/
theorem webServiceLogin_calls (env : Environment) (h : AllReadable req) :
    (webServiceLogin env (some req) >>= fun _ ↦ pure ()) =
      Login.webServiceLogin env (stringOf req emailName) (stringOf req passwdName) := by
  obtain ⟨hemail, hpasswd, hremote⟩ := h
  unfold webServiceLogin
  dsimp only
  rw [duplicate_of_readable hemail, duplicate_of_readable hpasswd, duplicate_of_readable hremote]
  cases stringOf req emailName with
  | none => rfl
  | some email =>
      refine congrArg (Program.ask (Op.loadAccount email)) (funext fun ans ↦ ?_)
      cases ans with
      | none => rfl
      | some row =>
          cases stringOf req passwdName with
          | none => rfl
          | some passwd =>
              obtain ⟨resp, -, hresp⟩ := sendJSONResponse_details row
              change ((if samePassword (env.md5Password email passwd) row.passwd then do
                  let details ← addAccountDetails (.ofRow row)
                  sendJSONResponse [details, member successName .true]
                else sendJSONResponse [member successName .false]) >>= fun _ ↦ pure ()) = _
              rw [hresp, sendJSONResponse_refusal]
              split_ifs <;> rfl

theorem webServiceRegister_calls (env : Environment) (h : AllReadable req) (now : ℕ) :
    (webServiceRegister env now (some req) >>= fun _ ↦ pure ()) =
      Login.webServiceRegister env now (stringOf req emailName) (stringOf req passwdName) := by
  obtain ⟨hemail, hpasswd, hremote⟩ := h
  unfold webServiceRegister
  dsimp only
  rw [duplicate_of_readable hemail, duplicate_of_readable hpasswd, duplicate_of_readable hremote]
  cases stringOf req emailName with
  | none => rfl
  | some email =>
      refine congrArg (Program.ask (Op.loadAccount email)) (funext fun ans ↦ ?_)
      cases ans with
      | none => rfl
      | some row => rfl

/-! ## Requests that crash the server -/

/-- The e-mail is a number. -/
def numericRequest : Json.Value :=
  .object [member emailName (.number 5)]

/-- There is no password. -/
def bareRequest : Json.Value :=
  .object [member emailName (.string (.ofBytes someEmail))]

def noAccounts : Database :=
  ⟨[], [], 1, [], 1, []⟩

def oneAccount : Database :=
  ⟨[], [⟨1, someEmail, somePasswd, true, true, []⟩], 2, [], 1, []⟩

/-- A member that is no string is too much for both handlers.  Without a password a login crashes if
the e-mail has an account, and a registration does not come back if it has none. -/
theorem webRequests_crash :
    ¬ LoginDecides id plainEnvironment noAccounts numericRequest ∧
      ¬ RegisterDecides id plainEnvironment noAccounts 0 numericRequest ∧
      ¬ LoginDecides id plainEnvironment oneAccount bareRequest ∧
      ¬ RegisterDecides id plainEnvironment noAccounts 0 bareRequest := by
  have hnumeric : ¬ AllReadable numericRequest := by
    intro h
    exact h.1 (.number 5) rfl rfl
  have hpasswd : stringOf bareRequest passwdName = none := rfl
  have hemail : stringOf bareRequest emailName = some someEmail := rfl
  have hpresent : HasAccount id oneAccount bareRequest := ⟨someEmail, _, hemail, rfl⟩
  have habsent : ¬ HasAccount id noAccounts bareRequest := by
    rintro ⟨email, row, -, hrow⟩
    cases hrow
  rw [loginDecides_iff, registerDecides_iff, loginDecides_iff, registerDecides_iff]
  refine ⟨fun h ↦ hnumeric h.1, fun h ↦ hnumeric h.1, fun h ↦ h.2 hpresent hpasswd, ?_⟩
  exact fun h ↦ (h.2.2 habsent).1 hpasswd

end WebService

end HavokMud.Login
