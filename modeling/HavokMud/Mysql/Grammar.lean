import HavokMud.Mysql.Tokens

/-!
# Statements over the tables

What the server does with the tokens of a statement: the columns it names are read and written in
the rows that meet its conditions.  The tables have the columns and keys of `db_schema.h`.
-/

namespace HavokMud.Mysql.Sql

/-! ## Statements -/

inductive Table
  | settings | accounts | pcs | pcattribs
deriving DecidableEq

inductive Column
  | name | value | id | email | passwd | ansi | confirmed | confcode | accountId | pcId | attribsrc
  | attribjson
deriving DecidableEq

def tables : List (Text × Table) :=
  [(bytes "settings", .settings), (bytes "accounts", .accounts), (bytes "pcs", .pcs),
    (bytes "pcattribs", .pcattribs)]

def columns : List (Text × Column) :=
  [(bytes "name", .name), (bytes "value", .value), (bytes "id", .id), (bytes "email", .email),
    (bytes "passwd", .passwd), (bytes "ansi", .ansi), (bytes "confirmed", .confirmed),
    (bytes "confcode", .confcode), (bytes "account_id", .accountId), (bytes "pc_id", .pcId),
    (bytes "attribsrc", .attribsrc), (bytes "attribjson", .attribjson)]

/-- A column and a value, in a condition or in an assignment. -/
abbrev Equation :=
  Column × SqlValue

inductive Statement
  | select (columns : List Column) (table : Table) (conditions : List Equation)
      (order : Option Column) (limit : Option ℕ)
  | update (table : Table) (assignments conditions : List Equation)
  | insert (table : Table) (columns : List Column) (values : List SqlValue)
deriving DecidableEq

def Statement.table : Statement → Table
  | select _ table _ _ _ => table
  | update table _ _ => table
  | insert table _ _ => table

/-! ## Parsing -/

/-- Names of columns with commas between them. -/
def parseColumns : List Token → Option (List Column × List Token)
  | .name name :: .mark 44 :: rest =>
      (columns.lookup name).bind fun column ↦
        (parseColumns rest).map fun r ↦ (column :: r.1, r.2)
  | .name name :: rest => (columns.lookup name).map fun column ↦ ([column], rest)
  | _ => none

/-- Equations with a separator between them. -/
def parseEquations (separator : Token) : List Token → Option (List Equation × List Token)
  | .name name :: .mark 61 :: .value value :: token :: rest =>
      (columns.lookup name).bind fun column ↦
        if token = separator then
          (parseEquations separator rest).map fun r ↦ ((column, value) :: r.1, r.2)
        else some ([(column, value)], token :: rest)
  | [.name name, .mark 61, .value value] =>
      (columns.lookup name).map fun column ↦ ([(column, value)], [])
  | _ => none

/-- Values with commas between them, up to the parenthesis behind them. -/
def parseValues : List Token → Option (List SqlValue × List Token)
  | .value value :: .mark 44 :: rest => (parseValues rest).map fun r ↦ (value :: r.1, r.2)
  | .value value :: .mark 41 :: rest => some ([value], rest)
  | _ => none

def parseOrder : List Token → Option (Option Column × List Token)
  | .word .order :: .word .by :: .name name :: rest =>
      (columns.lookup name).map fun column ↦ (some column, rest)
  | rest => some (none, rest)

def parseLimit : List Token → Option (Option ℕ)
  | [] => some none
  | [.word .limit, .value (.number n)] => some (some n.toNat)
  | _ => none

def parseSelect (read : List Token) : Option Statement :=
  (parseColumns read).bind fun
    | (columns, .word .from :: .name table :: .word .where :: rest) => do
        let table ← tables.lookup table
        let (conditions, rest) ← parseEquations (.word .and) rest
        let (order, rest) ← parseOrder rest
        let limit ← parseLimit rest
        some (.select columns table conditions order limit)
    | _ => none

def parseUpdate (table : Text) (read : List Token) : Option Statement :=
  (parseEquations (.mark 44) read).bind fun
    | (assignments, .word .where :: rest) => do
        let table ← tables.lookup table
        match ← parseEquations (.word .and) rest with
        | (conditions, []) => some (.update table assignments conditions)
        | _ => none
    | _ => none

def parseInsert (table : Text) (read : List Token) : Option Statement :=
  (parseColumns read).bind fun
    | (columns, .mark 41 :: .word .values :: .mark 40 :: rest) => do
        let table ← tables.lookup table
        match ← parseValues rest with
        | (values, []) => some (.insert table columns values)
        | _ => none
    | _ => none

def parse : List Token → Option Statement
  | .word .select :: rest => parseSelect rest
  | .word .update :: .name table :: .word .set :: rest => parseUpdate table rest
  | .word .insert :: .word .into :: .name table :: .mark 40 :: rest => parseInsert table rest
  | _ => none

/-- The statement that a text spells. -/
def readStatement (text : Text) : Option Statement :=
  (tokens text).bind parse

/-! ## Rows -/

/-- The number a value stands for, where a text is read as one. -/
def numeric : SqlValue → Option ℤ
  | .null => none
  | .number n => some n
  | .text value =>
      match tokens value with
      | some [.value (.number n)] => some n
      | _ => none

/-- A `TINYINT` that is 0 or 1. -/
def tinyint (value : SqlValue) : Option Bool :=
  (numeric value).bind fun n ↦
    if n = 0 then some false else if n = 1 then some true else none

/-- How a table keeps its rows. -/
structure Access (Row : Type) where
  columns : List Column
  /-- The primary key, which no `UPDATE` of the source writes. -/
  key : Column
  get : Row → Column → Option SqlValue
  set : Row → Column → SqlValue → Option Row
  rows : Database → List Row
  put : Database → List Row → Database
  /-- The row before a value is written. -/
  initial : Row
  /-- A row with its key is added, unless there is one with that key. -/
  add : Database → Row → Option Database

namespace Access

section Perform

variable {Row : Type} (access : Access Row) (collate : Text → Text)

def known (columns : List Column) : Bool :=
  columns.all (· ∈ access.columns)

/-- Texts are compared by the collation. -/
def equal : SqlValue → SqlValue → Bool
  | .number m, .number n => m = n
  | .text s, .text t => collate s = collate t
  | _, _ => false

/-- A row meets the conditions. -/
def meets (conditions : List Equation) (row : Row) : Bool :=
  conditions.all fun e ↦ (access.get row e.1).any fun value ↦ equal collate value e.2

def assign (row : Row) (assignments : List Equation) : Option Row :=
  assignments.foldlM (fun row e ↦ access.set row e.1 e.2) row

/-- The statement is executed, with the value of `mysql_num_rows`.  Nothing is returned on an
error. -/
def perform (db : Database) : Statement → Option (Database × ℕ)
  | .select columns _ conditions order limit =>
      if access.known (columns ++ conditions.map Prod.fst ++ order.toList) then
        let found := (access.rows db).countP (access.meets collate conditions)
        some (db, match limit with
          | none => found
          | some limit => min limit found)
      else none
  | .update _ assignments conditions =>
      if access.known (assignments.map Prod.fst ++ conditions.map Prod.fst) ∧
          access.key ∉ assignments.map Prod.fst then
        ((access.rows db).mapM fun row ↦
          if access.meets collate conditions row then access.assign row assignments
          else some row).map fun rows ↦ (access.put db rows, 0)
      else none
  | .insert _ columns values =>
      if access.known columns ∧ columns.length = values.length then
        ((access.assign access.initial (columns.zip values)).bind (access.add db)).map
          fun db ↦ (db, 0)
      else none

end Perform

end Access

open Access

section Tables

variable (collate : Text → Text)

def settings : Access (Text × Text) where
  columns := [.name, .value]
  key := .name
  get row
    | .name => some (.text row.1)
    | .value => some (.text row.2)
    | _ => none
  set row
    | .name, .text name => some (name, row.2)
    | .value, .text value => some (row.1, value)
    | _, _ => none
  rows := Database.settings
  put db rows := { db with settings := rows }
  initial := ([], [])
  add db row :=
    if db.valuesOf collate row.1 = [] then some { db with settings := db.settings ++ [row] }
    else none

/-- `AUTO_INCREMENT` writes the column `id`. -/
def accounts : Access Account where
  columns := [.id, .email, .passwd, .ansi, .confirmed, .confcode]
  key := .id
  get row
    | .id => some (.number row.id)
    | .email => some (.text row.email)
    | .passwd => some (.text row.passwd)
    | .ansi => some (.number row.ansi.toInt)
    | .confirmed => some (.number row.confirmed.toInt)
    | .confcode => some (.text row.confcode)
    | _ => none
  set row
    | .email, .text email => some { row with email := email }
    | .passwd, .text passwd => some { row with passwd := passwd }
    | .ansi, value => (tinyint value).map fun ansi ↦ { row with ansi := ansi }
    | .confirmed, value => (tinyint value).map fun confirmed ↦ { row with confirmed := confirmed }
    | .confcode, .text confcode => some { row with confcode := confcode }
    | _, _ => none
  rows := Database.accounts
  put db rows := { db with accounts := rows }
  initial := ⟨0, [], [], false, false, []⟩
  add db row := some { db with
    accounts := db.accounts ++ [{ row with id := db.nextAccount }]
    nextAccount := db.nextAccount + 1 }

def pcs : Access Pc where
  columns := [.id, .accountId, .name]
  key := .id
  get row
    | .id => some (.number row.id)
    | .accountId => some (.number row.accountId)
    | .name => some (.text row.name)
    | _ => none
  set row
    | .accountId, .number n => some { row with accountId := n }
    | .name, .text name => some { row with name := name }
    | _, _ => none
  rows := Database.pcs
  put db rows := { db with pcs := rows }
  initial := ⟨0, 0, []⟩
  add db row := some { db with
    pcs := db.pcs ++ [{ row with id := db.nextPc }]
    nextPc := db.nextPc + 1 }

/-- A zero in the column `pc_id` asks for a new id, which the source never does. -/
def pcattribs : Access PcAttribs where
  columns := [.pcId, .attribsrc, .attribjson]
  key := .pcId
  get row
    | .pcId => some (.number row.pcId)
    | .attribsrc => some (.text row.attribsrc)
    | .attribjson => some (.text row.attribjson)
    | _ => none
  set row
    | .pcId, .number n => some { row with pcId := n }
    | .attribsrc, .text source => some { row with attribsrc := source }
    | .attribjson, .text json => some { row with attribjson := json }
    | _, _ => none
  rows := Database.pcattribs
  put db rows := { db with pcattribs := rows }
  initial := ⟨0, [], []⟩
  add db row :=
    if row.pcId = 0 ∨ ∃ other ∈ db.pcattribs, other.pcId = row.pcId then none
    else some { db with pcattribs := db.pcattribs ++ [row] }

/-- The server executes a statement. -/
def perform (db : Database) (statement : Statement) : Option (Database × ℕ) :=
  match statement.table with
  | .settings => (settings collate).perform collate db statement
  | .accounts => accounts.perform collate db statement
  | .pcs => pcs.perform collate db statement
  | .pcattribs => pcattribs.perform collate db statement

variable {collate} {db : Database} {statement : Statement}

theorem perform_settings (h : statement.table = .settings) :
    perform collate db statement = (settings collate).perform collate db statement := by
  rw [perform, h]

theorem perform_accounts (h : statement.table = .accounts) :
    perform collate db statement = accounts.perform collate db statement := by
  rw [perform, h]

theorem perform_pcs (h : statement.table = .pcs) :
    perform collate db statement = pcs.perform collate db statement := by
  rw [perform, h]

theorem perform_pcattribs (h : statement.table = .pcattribs) :
    perform collate db statement = pcattribs.perform collate db statement := by
  rw [perform, h]

end Tables

end HavokMud.Mysql.Sql
