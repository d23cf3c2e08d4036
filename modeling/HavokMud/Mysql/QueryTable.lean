import HavokMud.Mysql.Grammar

/-!
# The queries of `QueryTable`

The patterns that the saves use are read as statements over the tables.  With the arguments in the
order of its places a pattern means what its query means.
-/

namespace HavokMud.Mysql.Upserts

open Sql

/-! ## The source -/

/-- The patterns of `QueryTable` from 0 to 18. -/
def queryTable : List Text :=
  [bytes "SELECT `value` FROM `settings` WHERE `name` = ? LIMIT 1",
    bytes "SELECT `value` FROM `settings` WHERE `name` = ? LIMIT 1",
    bytes "UPDATE `settings` SET `value` = ? WHERE `name` = ?",
    bytes "INSERT INTO `settings` (`name`, `value`) VALUES (?, ?)",
    bytes "SELECT `id`, `email`, `passwd`, `ansi`, `confirmed`, `confcode` " ++
      bytes "FROM `accounts` WHERE `email` = ?",
    bytes "SELECT `id`, `email`, `passwd`, `ansi`, `confirmed`, `confcode` " ++
      bytes "FROM `accounts` WHERE `id` = ?",
    bytes "UPDATE `accounts` SET `email` = ?, `passwd` = ?, `ansi` = ?, " ++
      bytes "`confirmed` = ?, `confcode` = ? WHERE `id` = ?",
    bytes "INSERT INTO `accounts` (`email`, `passwd`, `ansi`, `confirmed`, " ++
      bytes "`confcode`) VALUES (?, ?, ?, ?, ?)",
    bytes "SELECT `id`, `account_id`, `name` FROM `pcs` " ++
      bytes "WHERE `account_id` = ? ORDER BY `id`",
    bytes "SELECT `id`, `account_id`, `name` FROM `pcs` " ++
      bytes "WHERE `account_id` = ? AND `id` = ? ORDER BY `id`",
    bytes "SELECT `id`, `account_id`, `name` FROM `pcs` " ++
      bytes "WHERE `id` = ? ORDER BY `id` LIMIT 1",
    bytes "UPDATE `pcs` SET `account_id` = ?, `name` = ? WHERE `id` = ?",
    bytes "INSERT INTO `pcs` (`account_id`, `name`) VALUES (?, ?)",
    bytes "SELECT `attribsrc`, `attribjson` FROM `pcattribs` WHERE `pc_id` = ?",
    bytes "SELECT `attribjson` FROM `pcattribs` WHERE `pc_id` = ? AND `attribsrc` = ?",
    bytes "UPDATE `pcattribs` SET `attribjson` = ? WHERE `pc_id` = ? AND `attribsrc` = ?",
    bytes "INSERT INTO `pcattribs` (`pc_id`, `attribsrc`, `attribjson`) VALUES (?, ?, ?)",
    bytes "SELECT `id`, `account_id`, `name` FROM `pcs` WHERE `name` = ?",
    bytes "SELECT `id`, `email`, `passwd`, `ansi`, `confirmed`, `confcode` " ++
      bytes "FROM `accounts` WHERE `confcode` = ?"]

/-- What is queued: the number of a pattern, the array and how many of its elements are used. -/
structure QueryItem where
  queryId : ℕ
  queryData : List Bind
  queryDataCount : ℕ
deriving DecidableEq

/-- A boolean is bound as a `TINYINT`. -/
def bindBool (b : Bool) : Bind :=
  .tiny (if b then 1 else 0)

/-! ## The statements of the patterns -/

/-- A pattern whose places hold values. -/
def prepared (pattern : Text) (values : List SqlValue) : Option Statement :=
  (tokens pattern).bind fun read ↦ parse (fill read values)

/-- The arguments of an item. -/
def QueryItem.args (item : QueryItem) : List Bind :=
  item.queryData.take item.queryDataCount

section Server

variable (collate : Text → Text)

/-- The statement of an item is executed as a query is. -/
def Stands (item : QueryItem) (query : Query) : Prop :=
  ∃ pattern statement, queryTable[item.queryId]? = some pattern ∧
    pattern.count 63 ≤ item.args.length ∧
    prepared pattern (item.args.map valueOf) = some statement ∧
    ∀ db, perform collate db statement =
      (execute collate db query).map fun r ↦ (r.1, r.2.count)

variable {collate}

theorem Stands.of_prepared {item : QueryItem} {query : Query} (pattern : Text)
    (statement : Statement) (hpattern : queryTable[item.queryId]? = some pattern)
    (hcount : (pattern.count 63).ble item.args.length = true)
    (hprepared : prepared pattern (item.args.map valueOf) = some statement)
    (hperform : ∀ db, perform collate db statement =
      (execute collate db query).map fun r ↦ (r.1, r.2.count)) : Stands collate item query :=
  ⟨pattern, statement, hpattern, Nat.le_of_ble_eq_true hcount, hprepared, hperform⟩

section Perform

variable {Row : Type} (access : Access Row) {db : Database} {table : Table}
  {conditions assignments : List Equation}

theorem perform_select (met : Row → Bool) {columns : List Column} {order : Option Column}
    {limit : Option ℕ}
    (hknown : access.known (columns ++ conditions.map Prod.fst ++ order.toList) = true)
    (hmet : ∀ row, access.meets collate conditions row = met row) :
    access.perform collate db (.select columns table conditions order limit) =
      some (db, (limit.map fun n ↦ min n ((access.rows db).filter met).length).getD
        ((access.rows db).filter met).length) := by
  have hcount : (access.rows db).countP (access.meets collate conditions) =
      ((access.rows db).filter met).length := by
    rw [List.countP_eq_length_filter, funext hmet]
  rw [Access.perform, if_pos hknown, hcount]
  cases limit <;> rfl

theorem perform_update (met : Row → Bool) (write : Row → Row)
    (hknown : access.known (assignments.map Prod.fst ++ conditions.map Prod.fst) = true)
    (hkey : access.key ∉ assignments.map Prod.fst)
    (hmet : ∀ row, access.meets collate conditions row = met row)
    (hwrite : ∀ row, access.assign row assignments = some (write row)) :
    access.perform collate db (.update table assignments conditions) =
      some (access.put db ((access.rows db).map fun row ↦ if met row then write row else row),
        0) := by
  have hrow (row : Row) : (if access.meets collate conditions row then
      access.assign row assignments else some row) =
        pure (if met row then write row else row) := by
    rw [hmet, hwrite]
    split_ifs <;> rfl
  rw [Access.perform, if_pos ⟨hknown, hkey⟩, funext hrow, List.mapM_pure]
  rfl

theorem perform_insert (row : Row) {columns : List Column} {values : List SqlValue}
    (hknown : access.known columns = true) (hlength : columns.length = values.length)
    (hrow : access.assign access.initial (columns.zip values) = some row) :
    access.perform collate db (.insert table columns values) =
      (access.add db row).map fun db ↦ (db, 0) := by
  rw [Access.perform, if_pos ⟨hknown, hlength⟩, hrow]
  rfl

end Perform

set_option maxRecDepth 4000

theorem stands_checkSetting (name value : Text) :
    Stands collate ⟨1, [.string (some name), .string (some value)], 2⟩
      (.checkSetting name value) := by
  refine .of_prepared _ (.select [.value] .settings [(.name, .text name)] none (some 1)) rfl rfl rfl
    fun db ↦ ?_
  rw [perform_settings rfl]
  refine (perform_select (settings collate) (fun row ↦ collate row.1 = collate name)
      ?_ fun row ↦ ?_).trans ?_
  · rfl
  · simp [Access.meets, Access.equal, settings]
  · simp [execute, Result.count, Database.valuesOf, settings]

theorem stands_updateSetting (value name : Text) :
    Stands collate ⟨2, [.string (some value), .string (some name)], 2⟩
      (.updateSetting value name) := by
  refine .of_prepared _ (.update .settings [(.value, .text value)] [(.name, .text name)]) rfl rfl
    rfl fun db ↦ ?_
  rw [perform_settings rfl]
  refine (perform_update (settings collate) (fun row ↦ collate row.1 = collate name)
      (fun row ↦ (row.1, value)) ?_ ?_ (fun row ↦ ?_) fun row ↦ ?_).trans ?_
  · rfl
  · simp [settings]
  · simp [Access.meets, Access.equal, settings]
  · rfl
  · simp [execute, Result.count, settings]

theorem stands_insertSetting (name value : Text) :
    Stands collate ⟨3, [.string (some name), .string (some value)], 2⟩
      (.insertSetting name value) := by
  refine .of_prepared _ (.insert .settings [.name, .value] [.text name, .text value]) rfl rfl rfl
    fun db ↦ ?_
  rw [perform_settings rfl]
  refine (perform_insert (settings collate) (name, value) ?_ ?_ ?_).trans ?_
  · rfl
  · rfl
  · rfl
  · simp only [execute, settings]
    split_ifs <;> rfl

section Accounts

variable (id : Int32) (email passwd : Text) (ansi confirmed : Bool) (confcode : Text)

theorem stands_checkAccount :
    Stands collate ⟨5, [.long id, .string (some email), .string (some passwd), bindBool ansi,
      bindBool confirmed, .string (some confcode), .null], 7⟩
      (.checkAccount ⟨id.toInt, email, passwd, ansi, confirmed, confcode⟩) := by
  refine .of_prepared _ (.select [.id, .email, .passwd, .ansi, .confirmed, .confcode] .accounts
    [(.id, .number id.toInt)] none none) rfl rfl rfl fun db ↦ ?_
  rw [perform_accounts rfl]
  refine (perform_select accounts (fun row ↦ row.id = id.toInt) ?_ fun row ↦ ?_).trans ?_
  · rfl
  · simp [Access.meets, Access.equal, accounts]
  · simp [execute, Result.count, accounts]

theorem valueOf_bindBool (b : Bool) : tinyint (valueOf (bindBool b)) = some b := by
  cases b <;> decide +kernel

theorem stands_updateAccount :
    Stands collate ⟨6, [.string (some email), .string (some passwd), bindBool ansi,
      bindBool confirmed, .string (some confcode), .long id, .null], 6⟩
      (.updateAccount ⟨id.toInt, email, passwd, ansi, confirmed, confcode⟩) := by
  refine .of_prepared _ (.update .accounts [(.email, .text email), (.passwd, .text passwd),
    (.ansi, valueOf (bindBool ansi)), (.confirmed, valueOf (bindBool confirmed)),
    (.confcode, .text confcode)] [(.id, .number id.toInt)]) rfl rfl rfl fun db ↦ ?_
  rw [perform_accounts rfl]
  refine (perform_update accounts (fun row ↦ row.id = id.toInt)
        (fun row ↦ ⟨row.id, email, passwd, ansi, confirmed, confcode⟩) ?_ ?_ (fun row ↦ ?_)
          fun row ↦ ?_).trans ?_
  · rfl
  · simp [accounts]
  · simp [Access.meets, Access.equal, accounts]
  · simp [Access.assign, accounts, valueOf_bindBool]
  · simp only [execute, Result.count, accounts, Option.map_some, decide_eq_true_eq]
    congr 3
    apply List.map_congr_left
    intro row _
    split_ifs with hid
    · rw [hid]
    · rfl

theorem stands_insertAccount :
    Stands collate ⟨7, [.string (some email), .string (some passwd), bindBool ansi,
      bindBool confirmed, .string (some confcode), .long id, .null], 5⟩
      (.insertAccount ⟨id.toInt, email, passwd, ansi, confirmed, confcode⟩) := by
  refine .of_prepared _ (.insert .accounts [.email, .passwd, .ansi, .confirmed, .confcode]
    [.text email, .text passwd, valueOf (bindBool ansi), valueOf (bindBool confirmed),
      .text confcode]) rfl rfl rfl fun db ↦ ?_
  rw [perform_accounts rfl]
  refine (perform_insert accounts ⟨0, email, passwd, ansi, confirmed, confcode⟩ ?_ ?_ ?_).trans ?_
  · rfl
  · rfl
  · simp [Access.assign, accounts, valueOf_bindBool]
  · rfl

end Accounts

section Pcs

variable (id accountId : Int32) (name : Text)

theorem stands_checkPc :
    Stands collate ⟨10, [.long id, .long accountId, .string (some name), .null], 4⟩
      (.checkPc ⟨id.toInt, accountId.toInt, name⟩) := by
  refine .of_prepared _ (.select [.id, .accountId, .name] .pcs [(.id, .number id.toInt)]
    (some .id) (some 1)) rfl rfl rfl fun db ↦ ?_
  rw [perform_pcs rfl]
  refine (perform_select pcs (fun row ↦ row.id = id.toInt) ?_ fun row ↦ ?_).trans ?_
  · rfl
  · simp [Access.meets, Access.equal, pcs]
  · simp [execute, Result.count, pcs]

theorem stands_updatePc :
    Stands collate ⟨11, [.long accountId, .string (some name), .long id, .null], 3⟩
      (.updatePc ⟨id.toInt, accountId.toInt, name⟩) := by
  refine .of_prepared _ (.update .pcs [(.accountId, .number accountId.toInt), (.name, .text name)]
    [(.id, .number id.toInt)]) rfl rfl rfl fun db ↦ ?_
  rw [perform_pcs rfl]
  refine (perform_update pcs (fun row ↦ row.id = id.toInt)
      (fun row ↦ ⟨row.id, accountId.toInt, name⟩) ?_ ?_ (fun row ↦ ?_) fun row ↦ ?_).trans ?_
  · rfl
  · simp [pcs]
  · simp [Access.meets, Access.equal, pcs]
  · rfl
  · simp only [execute, Result.count, pcs, Option.map_some, decide_eq_true_eq]
    congr 3
    apply List.map_congr_left
    intro row _
    split_ifs with hid
    · rw [hid]
    · rfl

theorem stands_insertPc :
    Stands collate ⟨12, [.long accountId, .string (some name), .long id, .null], 2⟩
      (.insertPc ⟨id.toInt, accountId.toInt, name⟩) := by
  refine .of_prepared _ (.insert .pcs [.accountId, .name]
    [.number accountId.toInt, .text name]) rfl rfl rfl fun db ↦ ?_
  rw [perform_pcs rfl]
  refine (perform_insert pcs ⟨0, accountId.toInt, name⟩ ?_ ?_ ?_).trans ?_
  all_goals rfl

end Pcs

section Attribs

variable (pcId : Int32) (source json : Text)

theorem stands_checkPcAttribs :
    Stands collate ⟨14, [.long pcId, .string (some source), .string (some json)], 3⟩
      (.checkPcAttribs ⟨pcId.toInt, source, json⟩) := by
  refine .of_prepared _ (.select [.attribjson] .pcattribs [(.pcId, .number pcId.toInt),
    (.attribsrc, .text source)] none none) rfl rfl rfl fun db ↦ ?_
  rw [perform_pcattribs rfl]
  refine (perform_select pcattribs (fun row ↦ row.pcId = pcId.toInt ∧
        collate row.attribsrc = collate source) ?_ fun row ↦ ?_).trans ?_
  · rfl
  · simp [Access.meets, Access.equal, pcattribs]
  · simp [execute, Result.count, pcattribs]

theorem stands_updatePcAttribs :
    Stands collate ⟨15, [.string (some json), .long pcId, .string (some source)], 3⟩
      (.updatePcAttribs ⟨pcId.toInt, source, json⟩) := by
  refine .of_prepared _ (.update .pcattribs [(.attribjson, .text json)]
    [(.pcId, .number pcId.toInt), (.attribsrc, .text source)]) rfl rfl rfl fun db ↦ ?_
  rw [perform_pcattribs rfl]
  refine (perform_update pcattribs (fun row ↦ row.pcId = pcId.toInt ∧
        collate row.attribsrc = collate source) (fun row ↦ { row with attribjson := json })
          ?_ ?_ (fun row ↦ ?_) fun row ↦ ?_).trans ?_
  · rfl
  · simp [pcattribs]
  · simp [Access.meets, Access.equal, pcattribs]
  · rfl
  · simp [execute, Result.count, pcattribs]

theorem stands_insertPcAttribs (hpc : pcId ≠ 0) :
    Stands collate ⟨16, [.long pcId, .string (some source), .string (some json)], 3⟩
      (.insertPcAttribs ⟨pcId.toInt, source, json⟩) := by
  refine .of_prepared _ (.insert .pcattribs [.pcId, .attribsrc, .attribjson]
    [.number pcId.toInt, .text source, .text json]) rfl rfl rfl fun db ↦ ?_
  rw [perform_pcattribs rfl]
  refine (perform_insert pcattribs ⟨pcId.toInt, source, json⟩ ?_ ?_ ?_).trans ?_
  · rfl
  · rfl
  · rfl
  · have hzero : pcId.toInt ≠ 0 := by
      simpa [← Int32.toInt_inj] using hpc
    simp only [execute, pcattribs, hzero, false_or]
    split_ifs <;> rfl

end Attribs

end Server

end HavokMud.Mysql.Upserts
