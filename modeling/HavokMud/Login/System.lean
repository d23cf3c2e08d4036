import HavokMud.Login.Machine

/-!
# Sessions and web requests at one database

Any number of login sessions and web requests work on the table of accounts.  A call of the database
is one step: the Protobuf thread handles one request after the other, and what it has queued for a
save is executed before anything that is queued later.  Between two calls of one party any other
party may go on.
-/

namespace HavokMud.Login

open Interaction BTree Mysql

/-! ## The server -/

/-- The row that `db_mysql_save_account` writes.  The columns do not take NULL. -/
def PlayerAccount.row (account : PlayerAccount) : Option Account :=
  account.email.bind fun email ↦ account.pwd.map fun passwd ↦
    ⟨account.id, email, passwd, account.ansi, account.confirmed, account.confcode⟩

section Server

variable (collate : Text → Text)

/-- `result_load_account` takes the first row. -/
def firstAccount (db : Database) (query : Query) : Option Account :=
  match execute collate db query with
  | some (_, .accounts rows) => rows.head?
  | _ => none

/-- `db_mysql_save_account` with the query that `chain_save_account` queues, and the id of its
response. -/
def saveAccount (db : Database) (row : Account) : Option (Database × ℤ) :=
  (execute collate db (.checkAccount row)).bind fun found ↦
    ((Query.checkAccount row).chain found.2.count).bind fun query ↦
      (execute collate found.1 query).map fun saved ↦
        (saved.1, if found.2.count ≠ 0 then row.id else saved.2.insertid)

/-- A call of the database.  Nothing comes back from an `INSERT` that is refused, and what is found
of a pc is left open. -/
def answer (db : Database) (found : Option Found) : (op : Op) → Option (Database × op.Ans)
  | .loadAccount email => some (db, firstAccount collate db (.loadAccount email))
  | .loadAccountByConfirm code => some (db, firstAccount collate db (.loadAccountByConfirm code))
  | .saveAccount account => account.row.bind (saveAccount collate db)
  | .findPc _ => some (db, found)

end Server

/-! ## Parties -/

/-- What a party last read or wrote of an account: no row under an e-mail, or a row. -/
inductive Seen
  | nothing
  | absent (email : Text)
  | row (row : Account)
deriving DecidableEq

/-- What a party sees of an answer. -/
def Seen.next (seen : Seen) : (op : Op) → op.Ans → Seen
  | .loadAccount email, ans => (ans : Option Account).elim (.absent email) .row
  | .loadAccountByConfirm _, ans => (ans : Option Account).elim .nothing .row
  | .saveAccount account, id => account.row.elim seen fun row ↦ .row { row with id := id }
  | .findPc _, _ => seen

/-- What a party is doing. -/
inductive Request
  | idle
  | line (player : Player) (line : Option Text)
  | login
  | register
  | confirm (code : Option Text)

/-- The history of a party: the request it serves, and what it last saw of its account. -/
structure View where
  request : Request
  seen : Seen

def View.next (view : View) (op : Op) (ans : op.Ans) : View :=
  { view with seen := view.seen.next op ans }

/-- A session that waits for a line, if it has a player, or works on one; or a web request. -/
structure Party where
  view : View
  dialog : Dialog (Option Player)

/-- The call that a party waits for. -/
def Party.asks (party : Party) : Option Op :=
  match party.dialog with
  | .ask op _ => some op
  | _ => none

structure System where
  db : Database
  parties : ℕ → Party

def System.set (s : System) (p : ℕ) (party : Party) : System :=
  { s with parties := Function.update s.parties p party }

/-- No player has an account yet, or it will be loaded anew. -/
def PlayerState.anonymous : PlayerState → Bool
  | .initial | .getEmail | .disconnect => true
  | _ => false

/-- The view of a session that gets a line.  What it saw of an account it asks for anew is gone. -/
def View.serve (view : View) (player : Player) (line : Option Text) : View :=
  ⟨.line player line, if player.state.anonymous then .nothing else view.seen⟩

/-- What happens: a connection is accepted, a session gets a line, a web request comes in, or a call
of the database is answered. -/
inductive Event
  | connect (p : ℕ)
  | line (p : ℕ) (moment : Moment) (line : Option Text)
  | login (p : ℕ) (email passwd : Option Text)
  | register (p : ℕ) (now : ℕ) (email passwd : Option Text)
  | confirm (p : ℕ) (code : Option Text)
  | call (p : ℕ) (found : Option Found)

section Steps

variable (collate : Text → Text) (env : Environment)

/-- A party that has no player starts something. -/
def System.start (s : System) (p : ℕ) (request : Request) (dialog : Dialog (Option Player)) :
    Option System :=
  match (s.parties p).dialog with
  | .done none => some (s.set p ⟨⟨request, .nothing⟩, dialog⟩)
  | _ => none

def System.step (s : System) : Event → Option System
  | .connect p => s.start p .idle (pure (some .create))
  | .line p moment line =>
      match (s.parties p).dialog with
      | .done (some player) => some (s.set p ⟨(s.parties p).view.serve player line,
          loginStateMachine env moment player line >>= fun player ↦ pure (some player)⟩)
      | _ => none
  | .login p email passwd =>
      s.start p .login (webServiceLogin env email passwd >>= fun _ ↦ pure none)
  | .register p now email passwd =>
      s.start p .register (webServiceRegister env now email passwd >>= fun _ ↦ pure none)
  | .confirm p code => s.start p (.confirm code) (webServiceConfirm code >>= fun _ ↦ pure none)
  | .call p found =>
      match (s.parties p).dialog with
      | .ask op next =>
          match answer collate s.db found op with
          | none => some (s.set p ⟨(s.parties p).view, .fault⟩)
          | some (db, ans) =>
              some { s.set p ⟨(s.parties p).view.next op ans, next ans⟩ with db := db }
      | _ => none

/-- One event after the other. -/
def System.run (s : System) (events : List Event) : Option System :=
  events.foldlM (fun s event ↦ s.step collate env event) s

/-- No party is there yet. -/
def System.create (db : Database) : System :=
  ⟨db, fun _ ↦ ⟨⟨.idle, .nothing⟩, .done none⟩⟩

/-- The steps that meet a condition. -/
def Guarded (guard : System → Event → Prop) (s s' : System) : Prop :=
  ∃ event, guard s event ∧ s.step collate env event = some s'

end Steps

/-- The rows of `accounts` have distinct ids, which `AUTO_INCREMENT` has given. -/
structure Numbered (db : Database) : Prop where
  distinct : db.accounts.Pairwise fun row row' ↦ row.id ≠ row'.id
  positive : ∀ row ∈ db.accounts, 0 < row.id ∧ row.id < db.nextAccount
  next : 0 < db.nextAccount

end HavokMud.Login
