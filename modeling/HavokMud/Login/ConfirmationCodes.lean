import HavokMud.Digest.Context
import HavokMud.Login.Interleaving
import HavokMud.Mysql.Assembly
import HavokMud.SixWords.Reading

/-!
# Confirmation codes

`CreateSendConfirmEmail` digests the e-mail of an account and the time, and stores the digest as six
words.  A code that is in the table of accounts was made of the e-mail beside it, whatever sessions
and web requests have done since, and it is read back as the first eight bytes of the digest.
-/

namespace HavokMud.Login

open Interaction BTree Mysql Digest SixWords

/-! ## The code of an e-mail -/

/-- What `CreateSendConfirmEmail` prints into `buffer`.  `printf` writes `(null)` for NULL. -/
def confirmText (email : Option Text) (now : ℕ) : Text :=
  ([61, 61, 33] ++ email.getD [40, 110, 117, 108, 108, 41] ++ [33, 61, 61, 33] ++ decimal now ++
    [33, 61, 61]).take 4095

/-- The bytes in front of a pointer. -/
def bytesAt (bytes : List UInt8) (i : ℕ) : UInt8 :=
  bytes.getD i 0

/-- The words of the digest. -/
def confirmCode (stack : ℕ → UInt8) (email : Option Text) (now : ℕ) : Text :=
  opiebtoe stack (bytesAt ((digestOfParts [confirmText email now]).getD []))

/-- The environment with the digest of confirmation codes. -/
def Environment.ofCodes (parseEmail : Text → Option Text) (md5Password : Text → Text → Text)
    (stack : ℕ → UInt8) : Environment :=
  ⟨parseEmail, md5Password, confirmCode stack⟩

theorem confirmCode_eq (stack : ℕ → UInt8) (email : Option Text) (now : ℕ) :
    confirmCode stack email now = opiebtoe stack (bytesAt (md5 (confirmText email now))) := by
  have hshort : (confirmText email now).length ≤ 4095 := List.length_take_le _ _
  have hdigest : digestOfParts [confirmText email now] =
      some (md5 ([] ++ [confirmText email now].flatten)) := by
    apply represents_init.digest
    intro part hpart
    rw [List.mem_singleton.mp hpart]
    omega
  rw [confirmCode, hdigest]
  simp

/-- A code is read back as the beginning of the digest. -/
theorem confirmCode_reads (stack stack' out : ℕ → UInt8) (email : Option Text) (now : ℕ)
    {line : Text} (hline : fold line = fold (confirmCode stack email now)) :
    ∃ out', opieetob stack' out (some line) = some (1, out') ∧
      ∀ i < 8, out' i = bytesAt (md5 (confirmText email now)) i := by
  rw [confirmCode_eq] at hline
  exact opieetob_of_spells stack' out (spells_of_fold stack hline)

example : confirmCode (fun _ ↦ 0) (some someEmail) 0 = someCode := by
  decide +kernel

/-! ## What a program stores -/

section Codes

variable (genuine : Text → Text → Prop)

/-- The code of an account belongs to its e-mail. -/
def PlayerAccount.Genuine (account : PlayerAccount) : Prop :=
  ∀ email ∈ account.email, genuine email account.confcode

/-- The rows that are loaded have codes that belong to their e-mails. -/
def LoadsGenuine : (op : Op) → op.Ans → Prop
  | .loadAccount _, ans => ∀ row ∈ ans, genuine row.email row.confcode
  | .loadAccountByConfirm _, ans => ∀ row ∈ ans, genuine row.email row.confcode
  | _, _ => True

def SavesGenuine (_ : Unit) : Op → Prop
  | .saveAccount account => account.Genuine genuine
  | _ => True

abbrev KeepsGenuine {α : Type} (post : α → Prop) (dialog : Dialog α) : Prop :=
  Program.Along (LoadsGenuine genuine) (fun _ _ _ ↦ ()) (SavesGenuine genuine)
    (fun _ value ↦ post value) () dialog

def Player.Genuine (player : Player) : Prop :=
  ∀ account ∈ player.account, account.Genuine genuine

variable {genuine} {α β : Type} {player : Player} {account : PlayerAccount}

theorem KeepsGenuine.bind {mid : α → Prop} {post : β → Prop} {dialog : Dialog α}
    {f : α → Dialog β} (h : KeepsGenuine genuine mid dialog)
    (hf : ∀ value, mid value → KeepsGenuine genuine post (f value)) :
    KeepsGenuine genuine post (dialog >>= f) :=
  Program.Along.bind (Program.Along.mono h fun _ value hvalue ↦ hf value hvalue)

theorem PlayerAccount.Genuine.mono {account' : PlayerAccount} (h : account.Genuine genuine)
    (hemail : account'.email = account.email) (hconfcode : account'.confcode = account.confcode) :
    account'.Genuine genuine := by
  intro email hmem
  rw [hconfcode]
  exact h email (hemail ▸ hmem)

theorem Player.genuine_of_account (h : account.Genuine genuine)
    (hplayer : player.account = some account) : player.Genuine genuine := by
  intro account' hmem
  obtain rfl := Option.some.inj (hplayer.symm.trans hmem)
  exact h

theorem keepsGenuine_withAccount {post : α → Prop} {f : PlayerAccount → Dialog α}
    (h : player.Genuine genuine)
    (hf : ∀ account, account.Genuine genuine → KeepsGenuine genuine post (f account)) :
    KeepsGenuine genuine post (withAccount player f) := by
  unfold withAccount
  split
  · trivial
  · next account haccount => exact hf account (h account haccount)

theorem keepsGenuine_pbSaveAccount (h : account.Genuine genuine) :
    KeepsGenuine genuine (·.Genuine genuine) (pbSaveAccount account) :=
  Program.along_question h fun _ _ ↦ h.mono rfl rfl

theorem keepsGenuine_pbLoadAccount (email : Option Text) :
    KeepsGenuine genuine (∀ account ∈ ·, account.Genuine genuine) (pbLoadAccount email) := by
  cases email with
  | none =>
      intro account haccount
      cases haccount
  | some email =>
      apply Program.along_question trivial
      intro ans hans account haccount
      obtain ⟨row, hrow, rfl⟩ := Option.map_eq_some_iff.mp haccount
      intro email' hemail'
      obtain rfl := Option.some.inj hemail'
      exact hans row hrow

section Machine

variable (env : Environment) {now : ℕ}

/-- A new code belongs to the e-mail of the account. -/
theorem keepsGenuine_createSendConfirmEmail
    (hcode : ∀ email, genuine email (env.confcode (some email) now))
    (h : account.Genuine genuine) :
    KeepsGenuine genuine (·.Genuine genuine) (createSendConfirmEmail env now account) := by
  unfold createSendConfirmEmail
  split_ifs
  · apply keepsGenuine_pbSaveAccount
    intro email hemail
    have hsome : account.email = some email := hemail
    change genuine email (env.confcode account.email now)
    rw [hsome]
    exact hcode email
  · exact h

theorem keepsGenuine_enterState
    (hcode : ∀ email, genuine email (env.confcode (some email) now)) (h : player.Genuine genuine)
    (newState : PlayerState) :
    KeepsGenuine genuine (·.Genuine genuine) (enterState env now player newState) := by
  have hsame : ∀ player' : Player, player'.account = player.account → player'.Genuine genuine := by
    intro player' haccount account hmem
    rw [haccount] at hmem
    exact h account hmem
  unfold enterState
  apply Program.Along.bind
  cases newState with
  | confirmEmail | getNewUserPassword | showAccountMenu | showPlayerList =>
      exact keepsGenuine_withAccount h fun _ _ ↦ hsame _ rfl
  | resendConfirmEmail =>
      apply keepsGenuine_withAccount h
      intro account haccount
      apply (keepsGenuine_createSendConfirmEmail env hcode haccount).bind
      exact fun account' haccount' ↦ Player.genuine_of_account haccount' rfl
  | _ => exact hsame _ rfl

/-! ## Handlers -/

/-- What a handler returns. -/
abbrev HandsGenuine (genuine : Text → Text → Prop) (dialog : Dialog (Player × PlayerState)) :
    Prop :=
  KeepsGenuine genuine (·.1.Genuine genuine) dialog

theorem handsGenuine_account (h : account.Genuine genuine)
    (hplayer : player.account = some account) (newState : PlayerState) :
    HandsGenuine genuine (pure (player, newState)) :=
  Player.genuine_of_account h hplayer

theorem handsGenuine_comparePassword {arg : Text} {stored : Option Text}
    {same other : Dialog (Player × PlayerState)} (hsame : HandsGenuine genuine same)
    (hother : HandsGenuine genuine other) :
    HandsGenuine genuine (comparePassword env account arg stored same other) := by
  unfold comparePassword
  split
  · split_ifs
    · exact hsame
    · exact hother
  · trivial

theorem handsGenuine_doGetEmail (moment : Moment) (h : player.Genuine genuine)
    (hempty : ∀ email, genuine email []) (arg : Option Text) :
    HandsGenuine genuine (doGetEmail env moment player arg) := by
  cases arg with
  | none =>
      intro account haccount email hemail
      obtain ⟨account', -, rfl⟩ := Option.map_eq_some_iff.mp haccount
      cases hemail
  | some arg =>
      unfold doGetEmail
      dsimp only
      split
      · exact h
      · next email _ =>
          by_cases hlock : moment.siteLock = true
          · rw [if_pos hlock]
            exact h
          · rw [if_neg hlock]
            apply (keepsGenuine_pbLoadAccount (some email)).bind
            intro account haccount
            cases account with
            | some account => exact handsGenuine_account (haccount account rfl) rfl _
            | none =>
                dsimp only
                split_ifs
                · intro account haccount
                  cases haccount
                · exact handsGenuine_account (fun email _ ↦ hempty email) rfl _

theorem handsGenuine_chooseColour (moment : Moment) (h : player.Genuine genuine)
    (hcode : ∀ email, genuine email (env.confcode (some email) moment.now)) (ansi : Bool) :
    HandsGenuine genuine (chooseColour env moment player ansi) := by
  apply keepsGenuine_withAccount h
  intro account haccount
  have hansi : ({ account with ansi := ansi } : PlayerAccount).Genuine genuine :=
    haccount.mono rfl rfl
  apply (keepsGenuine_pbSaveAccount hansi).bind
  intro account' haccount'
  have hplayer : ({ player with account := some account' } : Player).Genuine genuine :=
    Player.genuine_of_account haccount' rfl
  dsimp only
  split_ifs
  · exact (keepsGenuine_enterState env hcode hplayer _).bind fun player' hplayer' ↦ hplayer'
  · exact hplayer

theorem handsGenuine_doShowAccountMenu (moment : Moment) (h : player.Genuine genuine)
    (hcode : ∀ email, genuine email (env.confcode (some email) moment.now)) (arg : Option Text) :
    HandsGenuine genuine (doShowAccountMenu env moment player arg) := by
  have hflag : ∀ newState, HandsGenuine genuine (ifConfirmed player newState) :=
    fun newState ↦ keepsGenuine_withAccount h fun _ _ ↦ h
  cases arg with
  | none => exact h
  | some arg =>
      unfold doShowAccountMenu
      dsimp only
      split
      case h_8 => exact keepsGenuine_withAccount h fun _ _ ↦ h
      case h_9 =>
        apply keepsGenuine_withAccount h
        intro account _
        split_ifs
        · exact h
        · exact (keepsGenuine_enterState env hcode h _).bind fun player' hplayer' ↦ hplayer'
      all_goals first
        | exact h
        | exact hflag _

theorem handsGenuine_doConfirmNewPassword (h : player.Genuine genuine) (arg : Option Text) :
    HandsGenuine genuine (doConfirmNewPassword env player arg) := by
  cases arg with
  | none => exact h
  | some arg =>
      apply keepsGenuine_withAccount h
      intro account haccount
      refine handsGenuine_comparePassword env ?_ h
      have hsaved : ({ account with
          pwd := account.newpwd
          newpwd := none } : PlayerAccount).Genuine genuine := haccount.mono rfl rfl
      apply (keepsGenuine_pbSaveAccount hsaved).bind
      exact fun account' haccount' ↦ handsGenuine_account haccount' rfl _

theorem handsGenuine_doEnterConfirmCode (h : player.Genuine genuine)
    (hempty : ∀ email, genuine email []) (arg : Option Text) :
    HandsGenuine genuine (doEnterConfirmCode player arg) := by
  cases arg with
  | none => exact h
  | some arg =>
      apply keepsGenuine_withAccount h
      intro account haccount
      split_ifs
      · apply (keepsGenuine_pbSaveAccount fun email _ ↦ hempty email).bind
        exact fun account' haccount' ↦ handsGenuine_account haccount' rfl _
      · have hsaved : ({ account with confirmed := false } : PlayerAccount).Genuine genuine :=
          haccount.mono rfl rfl
        apply (keepsGenuine_pbSaveAccount hsaved).bind
        exact fun account' haccount' ↦ handsGenuine_account haccount' rfl _

/-- A new password leaves e-mail and code alone. -/
theorem handsGenuine_newPassword (h : player.Genuine genuine)
    (f : PlayerAccount → PlayerAccount) (hemail : ∀ account, (f account).email = account.email)
    (hconfcode : ∀ account, (f account).confcode = account.confcode) (newState : PlayerState) :
    HandsGenuine genuine (withAccount player fun account ↦
      pure ({ player with account := some (f account) }, newState)) := by
  apply keepsGenuine_withAccount h
  intro account haccount
  exact handsGenuine_account (haccount.mono (hemail account) (hconfcode account)) rfl _

/-- The other handlers leave the account as it is. -/
theorem handsGenuine_handler (moment : Moment) (h : player.Genuine genuine)
    (hempty : ∀ email, genuine email [])
    (hcode : ∀ email, genuine email (env.confcode (some email) moment.now)) {arg : Option Text}
    {dialog : Dialog (Player × PlayerState)}
    (hdialog : handler env moment player arg player.state = some dialog) :
    HandsGenuine genuine dialog := by
  cases hstate : player.state <;> rw [hstate] at hdialog <;> cases hdialog
  case getEmail => exact handsGenuine_doGetEmail env moment h hempty arg
  case showAccountMenu => exact handsGenuine_doShowAccountMenu env moment h hcode arg
  case confirmNewPassword => exact handsGenuine_doConfirmNewPassword env h arg
  case enterConfirmCode => exact handsGenuine_doEnterConfirmCode h hempty arg
  all_goals first
    | exact h
    | cases arg with
      | none => exact h
      | some arg => ?_
  case confirmEmail =>
    unfold doConfirmEmail
    dsimp only
    split <;> exact h
  case getNewUserPassword =>
    unfold doGetNewUserPassword
    dsimp only
    split_ifs
    · exact h
    · exact handsGenuine_newPassword h (fun account ↦ { account with
        pwd := md5Password env account.email (some arg) }) (fun _ ↦ rfl) (fun _ ↦ rfl) _
  case confirmPassword =>
    exact keepsGenuine_withAccount h fun _ _ ↦ handsGenuine_comparePassword env h h
  case getPassword =>
    exact keepsGenuine_withAccount h fun _ _ ↦ handsGenuine_comparePassword env h h
  case chooseAnsi =>
    unfold doChooseAnsi
    dsimp only
    split
    · exact handsGenuine_chooseColour env moment h hcode true
    · exact handsGenuine_chooseColour env moment h hcode false
    · exact h
  case getNewPassword =>
    unfold doGetNewPassword
    dsimp only
    split_ifs
    · exact h
    · exact handsGenuine_newPassword h (fun account ↦ { account with
        newpwd := md5Password env account.email (some arg) }) (fun _ ↦ rfl) (fun _ ↦ rfl) _
  case showCreationMenu =>
    unfold doShowCreationMenu
    dsimp only
    split <;> exact h
  case chooseName =>
    apply Program.along_question trivial
    intro pc _
    apply keepsGenuine_withAccount h
    intro account _
    split
    · exact h
    · split_ifs <;> exact h
  case chooseSex =>
    unfold doChooseSex
    dsimp only
    split <;> exact h

theorem keepsGenuine_loginStateMachine (moment : Moment) (h : player.Genuine genuine)
    (hempty : ∀ email, genuine email [])
    (hcode : ∀ email, genuine email (env.confcode (some email) moment.now))
    (line : Option Text) :
    KeepsGenuine genuine (·.Genuine genuine) (loginStateMachine env moment player line) := by
  unfold loginStateMachine
  split
  · exact keepsGenuine_enterState env hcode h _
  · next dialog hdialog =>
      apply (handsGenuine_handler env moment h hempty hcode hdialog).bind
      rintro ⟨player', newState⟩ hplayer'
      dsimp only
      split_ifs
      · exact hplayer'
      · exact keepsGenuine_enterState env hcode hplayer' _

/-! ## Web requests -/

theorem keepsGenuine_webServiceLogin (email passwd : Option Text) :
    KeepsGenuine genuine (fun _ ↦ True) (webServiceLogin env email passwd) := by
  apply (keepsGenuine_pbLoadAccount email).bind
  intro account _
  cases account with
  | none => trivial
  | some account =>
      dsimp only
      split <;> trivial

theorem keepsGenuine_webServiceRegister (hempty : ∀ email, genuine email [])
    (hcode : ∀ email, genuine email (env.confcode (some email) now)) (email passwd : Option Text) :
    KeepsGenuine genuine (fun _ ↦ True) (webServiceRegister env now email passwd) := by
  apply (keepsGenuine_pbLoadAccount email).bind
  intro account _
  cases account with
  | some account => trivial
  | none =>
      cases email with
      | none => trivial
      | some email =>
          have haccount : ({ PlayerAccount.create email with
              pwd := md5Password env (some email) passwd
              ansi := true } : PlayerAccount).Genuine genuine := fun email _ ↦ hempty email
          apply (keepsGenuine_createSendConfirmEmail env hcode haccount).bind
          exact fun _ _ ↦ trivial

theorem keepsGenuine_webServiceConfirm (hempty : ∀ email, genuine email [])
    (code : Option Text) : KeepsGenuine genuine (fun _ ↦ True) (webServiceConfirm code) := by
  cases code with
  | none => trivial
  | some code =>
      apply Program.along_question trivial
      intro row _
      cases row with
      | none => trivial
      | some row =>
          apply KeepsGenuine.bind (keepsGenuine_pbSaveAccount fun email _ ↦ hempty email)
          exact fun _ _ ↦ trivial

end Machine

end Codes

/-! ## Runs -/

/-- The time that a line or a request sees. -/
def Event.now : Event → Option ℕ
  | .line _ moment _ => some moment.now
  | .register _ now _ _ => some now
  | _ => none

section Runs

variable (genuine : Text → Text → Prop)

/-- The codes in the table belong to their e-mails, and those that parties will store. -/
structure System.Genuine (s : System) : Prop where
  rows : ∀ row ∈ s.db.accounts, genuine row.email row.confcode
  parties : ∀ p, KeepsGenuine genuine (∀ player ∈ ·, Player.Genuine genuine player)
    (s.parties p).dialog

variable {genuine} {collate : Text → Text} {env : Environment} {s s' : System} {event : Event}

/-- An answer is admitted, and a save that is as it should be leaves the table so. -/
theorem genuine_answer (hrows : ∀ row ∈ s.db.accounts, genuine row.email row.confcode)
    {pc : Option Found} {op : Op} (hsaves : SavesGenuine genuine () op) {db : Database}
    {ans : op.Ans} (hanswer : answer collate s.db pc op = some (db, ans)) :
    LoadsGenuine genuine op ans ∧ ∀ row ∈ db.accounts, genuine row.email row.confcode := by
  cases op with
  | loadAccount email =>
      obtain ⟨rfl, rfl⟩ := Prod.mk.inj (Option.some.inj hanswer)
      refine ⟨?_, hrows⟩
      intro row hrow
      rw [firstAccount_loadAccount] at hrow
      exact hrows row (List.mem_of_find?_eq_some hrow)
  | loadAccountByConfirm code =>
      obtain ⟨rfl, rfl⟩ := Prod.mk.inj (Option.some.inj hanswer)
      refine ⟨?_, hrows⟩
      intro row hrow
      rw [firstAccount_loadAccountByConfirm] at hrow
      exact hrows row (List.mem_of_find?_eq_some hrow)
  | saveAccount account =>
      obtain ⟨row, hrow, hsave⟩ := Option.bind_eq_some_iff.mp hanswer
      rw [saveAccount_eq] at hsave
      obtain ⟨rfl, -⟩ := Prod.mk.inj (Option.some.inj hsave)
      refine ⟨trivial, ?_⟩
      obtain ⟨-, hemail, -, hconfcode⟩ := row_fields hrow
      have hgenuine : genuine row.email row.confcode := by
        rw [hconfcode]
        exact hsaves row.email hemail.symm
      intro row' hrow'
      rcases mem_written hrow' with hold | ⟨rfl, -⟩ | ⟨rfl, -⟩
      · exact hrows row' hold
      · exact hgenuine
      · exact hgenuine
  | findPc name =>
      obtain ⟨rfl, -⟩ := Prod.mk.inj (Option.some.inj hanswer)
      exact ⟨trivial, hrows⟩

theorem System.Genuine.step (h : s.Genuine genuine) (hempty : ∀ email, genuine email [])
    (hcode : ∀ now ∈ event.now, ∀ email, genuine email (env.confcode (some email) now))
    (hstep : s.step collate env event = some s') : s'.Genuine genuine := by
  have hset : ∀ {p : ℕ} {party : Party} {db : Database},
      KeepsGenuine genuine (∀ player ∈ ·, Player.Genuine genuine player) party.dialog →
      (∀ row ∈ db.accounts, genuine row.email row.confcode) →
      System.Genuine genuine { s.set p party with db := db } := by
    intro p party db hparty hrows
    refine ⟨hrows, ?_⟩
    intro q
    change KeepsGenuine genuine _ ((s.set p party).parties q).dialog
    rcases eq_or_ne q p with rfl | hq
    · rw [System.set_self]
      exact hparty
    · rw [System.set_of_ne s party hq]
      exact h.parties q
  have hnone : ∀ player ∈ (none : Option Player), Player.Genuine genuine player := by
    intro player hplayer
    cases hplayer
  cases event with
  | connect p =>
      obtain ⟨-, rfl⟩ := start_cases hstep
      refine hset ?_ h.rows
      intro player hplayer account haccount
      obtain rfl := Option.some.inj hplayer
      cases haccount
  | line p moment line =>
      unfold System.step at hstep
      dsimp only at hstep
      split at hstep
      · next player hidle =>
          obtain rfl := Option.some.inj hstep
          refine hset ?_ h.rows
          have hparty := h.parties p
          rw [hidle] at hparty
          apply (keepsGenuine_loginStateMachine env moment (hparty player rfl) hempty
            (hcode moment.now rfl) line).bind
          intro player' hplayer' player'' hmem
          obtain rfl := Option.some.inj hmem
          exact hplayer'
      · cases hstep
  | login p email passwd =>
      obtain ⟨-, rfl⟩ := start_cases hstep
      exact hset ((keepsGenuine_webServiceLogin env email passwd).bind fun _ _ ↦ hnone) h.rows
  | register p now email passwd =>
      obtain ⟨-, rfl⟩ := start_cases hstep
      exact hset ((keepsGenuine_webServiceRegister env hempty (hcode now rfl) email passwd).bind
        fun _ _ ↦ hnone) h.rows
  | confirm p code =>
      obtain ⟨-, rfl⟩ := start_cases hstep
      exact hset ((keepsGenuine_webServiceConfirm hempty code).bind fun _ _ ↦ hnone) h.rows
  | call p pc =>
      unfold System.step at hstep
      dsimp only at hstep
      split at hstep
      · next op next hask =>
          have hparty := h.parties p
          rw [hask] at hparty
          split at hstep
          · obtain rfl := Option.some.inj hstep
            exact hset trivial h.rows
          · next db ans hanswer =>
              obtain rfl := Option.some.inj hstep
              obtain ⟨hloads, hrows⟩ := genuine_answer h.rows hparty.1 hanswer
              exact hset (hparty.2 ans hloads) hrows
      · cases hstep

/-- Along a run every code belongs to its e-mail, if the new ones do. -/
theorem System.Genuine.run (hempty : ∀ email, genuine email []) {events : List Event}
    (hcode : ∀ event ∈ events, ∀ now ∈ event.now, ∀ email,
      genuine email (env.confcode (some email) now))
    (h : s.Genuine genuine) (hrun : s.run collate env events = some s') : s'.Genuine genuine := by
  induction events generalizing s with
  | nil =>
      obtain rfl := Option.some.inj hrun
      exact h
  | cons event events ih =>
      obtain ⟨mid, hstep, hrest⟩ := Option.bind_eq_some_iff.mp hrun
      have hmid := h.step hempty (hcode event List.mem_cons_self) hstep
      exact ih (fun event' hmem ↦ hcode event' (List.mem_cons_of_mem event hmem)) hmid hrest

/-- Whatever sessions and web requests do, a code in the table of accounts is empty, or was there
with its e-mail from the beginning, or was made of its e-mail at the time of an event; then it is
read back as the first eight bytes of the digest. -/
theorem stored_codes_genuine (parseEmail : Text → Option Text) (md5Password : Text → Text → Text)
    (stack stack' out : ℕ → UInt8) {db : Database} {events : List Event}
    (hrun : (System.create db).run collate (.ofCodes parseEmail md5Password stack) events = some s)
    {row : Account} (hrow : row ∈ s.db.accounts) :
    row.confcode = [] ∨
      (∃ old ∈ db.accounts, old.email = row.email ∧ old.confcode = row.confcode) ∨
      ∃ event ∈ events, ∃ now ∈ event.now, row.confcode = confirmCode stack (some row.email) now ∧
        ∃ out', opieetob stack' out (some row.confcode) = some (1, out') ∧
          ∀ i < 8, out' i = bytesAt (md5 (confirmText (some row.email) now)) i := by
  have hcreate : (System.create db).Genuine fun email code ↦ code = [] ∨
      (∃ old ∈ db.accounts, old.email = email ∧ old.confcode = code) ∨
      ∃ event ∈ events, ∃ now ∈ event.now, code = confirmCode stack (some email) now := by
    refine ⟨fun row hrow ↦ .inr (.inl ⟨row, hrow, rfl, rfl⟩), ?_⟩
    intro p player hplayer
    cases hplayer
  have hgenuine := hcreate.run (fun _ ↦ .inl rfl)
    (fun event hevent now hnow email ↦ .inr (.inr ⟨event, hevent, now, hnow, rfl⟩)) hrun
  rcases hgenuine.rows row hrow with hempty | hold | ⟨event, hevent, now, hnow, hcode⟩
  · exact .inl hempty
  · exact .inr (.inl hold)
  · refine .inr (.inr ⟨event, hevent, now, hnow, hcode, ?_⟩)
    exact confirmCode_reads stack stack' out (some row.email) now (by rw [hcode])

/-- A registration over the web at time 0. -/
theorem stored_codes_genuine_register : ∃ s : System, ∃ row ∈ s.db.accounts,
    row.email = someEmail ∧ (row.confcode = [] ∨
      (∃ old ∈ (⟨[], [], 1, [], 1, []⟩ : Database).accounts,
        old.email = row.email ∧ old.confcode = row.confcode) ∨
      ∃ event ∈ [Event.register 0 0 (some someEmail) (some [112]), .call 0 none, .call 0 none],
        ∃ now ∈ event.now, row.confcode = confirmCode (fun _ ↦ 0) (some row.email) now ∧
          ∃ out', opieetob (fun _ ↦ 0) (fun _ ↦ 0) (some row.confcode) = some (1, out') ∧
            ∀ i < 8, out' i = bytesAt (md5 (confirmText (some row.email) now)) i) := by
  let run := (System.create ⟨[], [], 1, [], 1, []⟩).run lowerText
    (.ofCodes some (fun _ passwd ↦ passwd) fun _ ↦ 0)
    [.register 0 0 (some someEmail) (some [112]), .call 0 none, .call 0 none]
  let s := run.getD (System.create ⟨[], [], 1, [], 1, []⟩)
  have hrun : run = some s := rfl
  let row : Account :=
    ⟨1, someEmail, [112], true, false, confirmCode (fun _ ↦ 0) (some someEmail) 0⟩
  have hrow : row ∈ s.db.accounts := List.mem_singleton.mpr rfl
  exact ⟨s, row, hrow, rfl, stored_codes_genuine some (fun _ passwd ↦ passwd) (fun _ ↦ 0)
    (fun _ ↦ 0) (fun _ ↦ 0) hrun hrow⟩

end Runs

end HavokMud.Login
