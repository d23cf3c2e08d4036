import Mathlib.Data.List.Basic
import Mathlib.Data.Int.Basic

/-!
# The queries of the database

The statements of `QueryTable` with their arguments, over the tables of `db_schema.h`.  Texts are
compared by the collation of the server, which is a parameter.
-/

namespace HavokMud.Mysql

/-- A text without its NUL. -/
abbrev Text :=
  List UInt8

/-- A row of `accounts`. -/
structure Account where
  id : ℤ
  email : Text
  passwd : Text
  ansi : Bool
  confirmed : Bool
  confcode : Text
deriving DecidableEq

/-- A row of `pcs`. -/
structure Pc where
  id : ℤ
  accountId : ℤ
  name : Text
deriving DecidableEq

/-- A row of `pcattribs`. -/
structure PcAttribs where
  pcId : ℤ
  attribsrc : Text
  attribjson : Text
deriving DecidableEq

/-- The tables.  Behind `accounts` and `pcs` stand the values that `AUTO_INCREMENT` gives next. -/
structure Database where
  settings : List (Text × Text)
  accounts : List Account
  nextAccount : ℤ
  pcs : List Pc
  nextPc : ℤ
  pcattribs : List PcAttribs
deriving DecidableEq

/-- The entries of `QueryTable` from 0 to 18, with their arguments. -/
inductive Query
  | getSetting (name : Text)
  | checkSetting (name value : Text)
  | updateSetting (value name : Text)
  | insertSetting (name value : Text)
  | loadAccount (email : Text)
  | checkAccount (account : Account)
  | updateAccount (account : Account)
  | insertAccount (account : Account)
  | getPcList (accountId : ℤ)
  | loadPc (accountId id : ℤ)
  | checkPc (pc : Pc)
  | updatePc (pc : Pc)
  | insertPc (pc : Pc)
  | loadPcAttribs (pcId : ℤ)
  | checkPcAttribs (attribs : PcAttribs)
  | updatePcAttribs (attribs : PcAttribs)
  | insertPcAttribs (attribs : PcAttribs)
  | findPc (name : Text)
  | loadAccountByConfirm (code : Text)
deriving DecidableEq

/-- What a statement gives back: rows, or the value of `mysql_insert_id`. -/
inductive Result
  | settings (values : List Text)
  | accounts (rows : List Account)
  | pcs (rows : List Pc)
  | attribs (rows : List PcAttribs)
  | done (insertid : ℤ)
deriving DecidableEq

/-- `mysql_num_rows`, zero without rows. -/
def Result.count : Result → ℕ
  | .settings values => values.length
  | .accounts rows => rows.length
  | .pcs rows => rows.length
  | .attribs rows => rows.length
  | .done _ => 0

/-- `mysql_insert_id`. -/
def Result.insertid : Result → ℤ
  | .done insertid => insertid
  | _ => 0

/-- The query a chain function queues behind a query that found `count` rows. -/
def Query.chain : Query → ℕ → Option Query
  | .checkSetting name value, count =>
      some (if count ≠ 0 then .updateSetting value name else .insertSetting name value)
  | .checkAccount account, count =>
      some (if count ≠ 0 then .updateAccount account else .insertAccount account)
  | .checkPc pc, count => some (if count ≠ 0 then .updatePc pc else .insertPc pc)
  | .checkPcAttribs attribs, count =>
      some (if count ≠ 0 then .updatePcAttribs attribs else .insertPcAttribs attribs)
  | _, _ => none

section Server

variable (collate : Text → Text)

/-- The settings of a name. -/
def Database.valuesOf (db : Database) (name : Text) : List Text :=
  (db.settings.filter fun row ↦ collate row.1 = collate name).map Prod.snd

/-- The statement is executed; nothing is returned on a duplicate key. -/
def execute (db : Database) : Query → Option (Database × Result)
  | .getSetting name => some (db, .settings ((db.valuesOf collate name).take 1))
  | .checkSetting name _ => some (db, .settings ((db.valuesOf collate name).take 1))
  | .updateSetting value name =>
      some ({ db with
        settings := db.settings.map fun row ↦
          if collate row.1 = collate name then (row.1, value) else row }, .done 0)
  | .insertSetting name value =>
      if db.valuesOf collate name = [] then
        some ({ db with settings := db.settings ++ [(name, value)] }, .done 0)
      else none
  | .loadAccount email =>
      some (db, .accounts (db.accounts.filter fun row ↦ collate row.email = collate email))
  | .checkAccount account =>
      some (db, .accounts (db.accounts.filter fun row ↦ row.id = account.id))
  | .updateAccount account =>
      some ({ db with
        accounts := db.accounts.map fun row ↦ if row.id = account.id then account else row },
          .done 0)
  | .insertAccount account =>
      some ({ db with
        accounts := db.accounts ++ [{ account with id := db.nextAccount }]
        nextAccount := db.nextAccount + 1 }, .done db.nextAccount)
  | .getPcList accountId => some (db, .pcs (db.pcs.filter fun row ↦ row.accountId = accountId))
  | .loadPc accountId id =>
      some (db, .pcs (db.pcs.filter fun row ↦ row.accountId = accountId ∧ row.id = id))
  | .checkPc pc => some (db, .pcs ((db.pcs.filter fun row ↦ row.id = pc.id).take 1))
  | .updatePc pc =>
      some ({ db with pcs := db.pcs.map fun row ↦ if row.id = pc.id then pc else row }, .done 0)
  | .insertPc pc =>
      some ({ db with
        pcs := db.pcs ++ [{ pc with id := db.nextPc }]
        nextPc := db.nextPc + 1 }, .done db.nextPc)
  | .loadPcAttribs pcId => some (db, .attribs (db.pcattribs.filter fun row ↦ row.pcId = pcId))
  | .checkPcAttribs attribs =>
      some (db, .attribs (db.pcattribs.filter fun row ↦
        row.pcId = attribs.pcId ∧ collate row.attribsrc = collate attribs.attribsrc))
  | .updatePcAttribs attribs =>
      some ({ db with
        pcattribs := db.pcattribs.map fun row ↦
          if row.pcId = attribs.pcId ∧ collate row.attribsrc = collate attribs.attribsrc then
            { row with attribjson := attribs.attribjson }
          else row }, .done 0)
  | .insertPcAttribs attribs =>
      -- `pc_id` alone is the primary key
      if ∃ row ∈ db.pcattribs, row.pcId = attribs.pcId then none
      else some ({ db with pcattribs := db.pcattribs ++ [attribs] }, .done attribs.pcId)
  | .findPc name => some (db, .pcs (db.pcs.filter fun row ↦ collate row.name = collate name))
  | .loadAccountByConfirm code =>
      some (db, .accounts (db.accounts.filter fun row ↦ collate row.confcode = collate code))

end Server

end HavokMud.Mysql
