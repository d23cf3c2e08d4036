import HavokMud.Attributes.StringValues
import HavokMud.Mysql.QueryTable

/-!
# Upserts

A save queues a `SELECT`, and a chain function queues an `UPDATE` or an `INSERT` behind it.  Both
take their arguments from the array of the save, which the chain function rearranges.  The array
fits each of the three patterns, so a save writes one row; but the strings in it are those that
`memstrlink` returns, and `db_quote` leaves their backslashes as they are.
-/

namespace HavokMud.Mysql.Upserts

open BTree Sql
open Json (CString)
open Attributes.Locks (Strings)

/-! ## The source -/

/-- What is saved. -/
inductive Upsert
  | setSetting (name value : CString)
  | saveAccount (id : Int32) (email passwd : CString) (ansi confirmed : Bool)
      (confcode : Option CString)
  | savePc (id accountId : Int32) (name : CString)
  | savePcAttribs (pcId : Int32) (source json : CString)

section Arrays

/-- `memcpy` and `memmove` of `count` elements. -/
def memmove (data : List Bind) (dest src count : ℕ) : List Bind :=
  data.take dest ++ (data.drop src).take count ++ data.drop (dest + count)

def chainSetSetting (count : ℕ) (data : List Bind) : Option QueryItem :=
  if count ≠ 0 then do
    let temp ← data[0]?
    let data := memmove data 0 1 1
    some ⟨2, data.set 1 temp, 2⟩
  else some ⟨3, data, 2⟩

def chainSaveAccount (count : ℕ) (data : List Bind) : Option QueryItem := do
  let temp ← data[0]?
  let data := memmove data 0 1 5
  let data := data.set 5 temp
  some (if count ≠ 0 then ⟨6, data, 6⟩ else ⟨7, data, 5⟩)

def chainSavePc (count : ℕ) (data : List Bind) : Option QueryItem := do
  let temp ← data[0]?
  let data := memmove data 0 1 2
  let data := data.set 2 temp
  some (if count ≠ 0 then ⟨11, data, 3⟩ else ⟨12, data, 2⟩)

def chainSavePcAttribs (count : ℕ) (data : List Bind) : Option QueryItem :=
  if count ≠ 0 then do
    let temp ← data[2]?
    let data := memmove data 1 0 2
    some ⟨15, data.set 0 temp, 3⟩
  else some ⟨16, data, 3⟩

/-- The chain function of a query, called with the number of rows that were found. -/
def QueryItem.chain (item : QueryItem) (count : ℕ) : Option QueryItem :=
  match item.queryId with
  | 1 => chainSetSetting count item.queryData
  | 5 => chainSaveAccount count item.queryData
  | 10 => chainSavePc count item.queryData
  | 14 => chainSavePcAttribs count item.queryData
  | _ => none

end Arrays

/-- `MAX_STRING_LENGTH`, the size of `sqlbuf`. -/
def maxStringLength : ℕ :=
  40960

/-- `confcode`, or the empty string. -/
def confcodeText (confcode : Option CString) : CString :=
  confcode.getD ⟨[], List.not_mem_nil⟩

section Processing

-- The string table while the save is processed.  What it links stays on it.
variable (strings : Strings) (collate : Text → Text)

/-- `bind_string`. -/
def bindString (value : CString) : Bind :=
  .string (some (strings.memstrlink value).val)

/-- The query of a save.  Attributes without a pc are not saved. -/
def Upsert.queued : Upsert → Option QueryItem
  | setSetting name value =>
      some ⟨1, [bindString strings name, bindString strings value], 2⟩
  | saveAccount id email passwd ansi confirmed confcode =>
      some ⟨5, [.long id, bindString strings email, bindString strings passwd, bindBool ansi,
        bindBool confirmed, bindString strings (confcodeText confcode), .null], 7⟩
  | savePc id accountId name =>
      some ⟨10, [.long id, .long accountId, bindString strings name, .null], 4⟩
  | savePcAttribs pcId source json =>
      if pcId = 0 then none
      else some ⟨14, [.long pcId, bindString strings source, bindString strings json], 3⟩

/-- What `db_quote` returns: a string without quote characters is linked again. -/
def quote (string : List UInt8) : List UInt8 :=
  if string.countP isQuote = 0 then (strings.memstrlink (.ofBytes string)).val
  else escaped string

/-- The statement that `db_query` makes of an item. -/
def QueryItem.outcome (item : QueryItem) : Option Outcome :=
  queryTable[item.queryId]?.map fun query ↦
    dbQuery (fun _ ↦ quote strings) maxStringLength query
      (some (item.queryData.take item.queryDataCount))

/-- `MysqlThread` sends an item to the server. -/
def QueryItem.process (item : QueryItem) (db : Database) : Option (Database × ℕ) :=
  match item.outcome strings with
  | some (.send sqlbuf) => (readStatement sqlbuf).bind (perform collate db)
  | _ => none

/-- The `SELECT` of a save and the statement that its chain function queues. -/
def Upsert.process (request : Upsert) (db : Database) : Option Database := do
  let item ← request.queued strings
  let (db, count) ← item.process strings collate db
  let next ← item.chain count
  let (db, _) ← next.process strings collate db
  some db

end Processing

/-! ## The arrays -/

section Chains

variable {strings : Strings} {collate : Text → Text} {request : Upsert} {item next : QueryItem}
  {count : ℕ}

/-- The query a save begins with, with the strings that are linked. -/
def Upsert.query (strings : Strings) : Upsert → Query
  | setSetting name value =>
      .checkSetting (strings.memstrlink name).val (strings.memstrlink value).val
  | saveAccount id email passwd ansi confirmed confcode =>
      .checkAccount ⟨id.toInt, (strings.memstrlink email).val, (strings.memstrlink passwd).val,
        ansi, confirmed, (strings.memstrlink (confcodeText confcode)).val⟩
  | savePc id accountId name =>
      .checkPc ⟨id.toInt, accountId.toInt, (strings.memstrlink name).val⟩
  | savePcAttribs pcId source json =>
      .checkPcAttribs ⟨pcId.toInt, (strings.memstrlink source).val,
        (strings.memstrlink json).val⟩

theorem stands_queued (hqueued : request.queued strings = some item) :
    Stands collate item (request.query strings) := by
  cases request with
  | setSetting name value =>
      cases hqueued
      exact stands_checkSetting _ _
  | saveAccount id email passwd ansi confirmed confcode =>
      cases hqueued
      exact stands_checkAccount id _ _ ansi confirmed _
  | savePc id accountId name =>
      cases hqueued
      exact stands_checkPc id accountId _
  | savePcAttribs pcId source json =>
      obtain ⟨-, hitem⟩ := Option.ite_none_left_eq_some.mp hqueued
      cases hitem
      exact stands_checkPcAttribs pcId _ _

/-- The chain functions leave an array that fits the pattern they queue it with. -/
theorem stands_chain (hqueued : request.queued strings = some item) (count : ℕ) :
    ∃ next query, item.chain count = some next ∧
      (request.query strings).chain count = some query ∧ Stands collate next query := by
  cases request with
  | setSetting name value =>
      cases hqueued
      cases count with
      | zero => exact ⟨_, _, rfl, rfl, stands_insertSetting _ _⟩
      | succ count => exact ⟨_, _, rfl, rfl, stands_updateSetting _ _⟩
  | saveAccount id email passwd ansi confirmed confcode =>
      cases hqueued
      cases count with
      | zero => exact ⟨_, _, rfl, rfl, stands_insertAccount id _ _ ansi confirmed _⟩
      | succ count => exact ⟨_, _, rfl, rfl, stands_updateAccount id _ _ ansi confirmed _⟩
  | savePc id accountId name =>
      cases hqueued
      cases count with
      | zero => exact ⟨_, _, rfl, rfl, stands_insertPc id accountId _⟩
      | succ count => exact ⟨_, _, rfl, rfl, stands_updatePc id accountId _⟩
  | savePcAttribs pcId source json =>
      obtain ⟨hpc, hitem⟩ := Option.ite_none_left_eq_some.mp hqueued
      cases hitem
      cases count with
      | zero => exact ⟨_, _, rfl, rfl, stands_insertPcAttribs pcId _ _ hpc⟩
      | succ count => exact ⟨_, _, rfl, rfl, stands_updatePcAttribs pcId _ _⟩

theorem memmove_subset (data : List Bind) (dest src count : ℕ) :
    memmove data dest src count ⊆ data := by
  intro arg harg
  rcases List.mem_append.mp harg with hfront | hbehind
  · rcases List.mem_append.mp hfront with htake | hmoved
    · exact List.mem_of_mem_take htake
    · exact List.mem_of_mem_drop (List.mem_of_mem_take hmoved)
  · exact List.mem_of_mem_drop hbehind

/-- An element that is stored in an array that was moved. -/
theorem mem_set_memmove {data : List Bind} {temp arg : Bind} {i : ℕ} (htemp : data[i]? = some temp)
    {j dest src count : ℕ} (harg : arg ∈ (memmove data dest src count).set j temp) :
    arg ∈ data := by
  rcases List.mem_or_eq_of_mem_set harg with hmem | rfl
  · exact memmove_subset data dest src count hmem
  · exact List.mem_of_getElem? htemp

/-- A chain function only moves arguments. -/
theorem chain_subset (hchain : item.chain count = some next) :
    next.queryData ⊆ item.queryData := by
  intro arg harg
  unfold QueryItem.chain at hchain
  split at hchain
  · simp only [chainSetSetting, Option.bind_eq_bind] at hchain
    split_ifs at hchain with hcount
    · obtain ⟨temp, htemp, hnext⟩ := Option.bind_eq_some_iff.mp hchain
      cases hnext
      exact mem_set_memmove htemp harg
    · cases hchain
      exact harg
  · obtain ⟨temp, htemp, hnext⟩ := Option.bind_eq_some_iff.mp hchain
    split_ifs at hnext <;> cases hnext <;> exact mem_set_memmove htemp harg
  · obtain ⟨temp, htemp, hnext⟩ := Option.bind_eq_some_iff.mp hchain
    split_ifs at hnext <;> cases hnext <;> exact mem_set_memmove htemp harg
  · simp only [chainSavePcAttribs, Option.bind_eq_bind] at hchain
    split_ifs at hchain with hcount
    · obtain ⟨temp, htemp, hnext⟩ := Option.bind_eq_some_iff.mp hchain
      cases hnext
      exact mem_set_memmove htemp harg
    · cases hchain
      exact harg
  · cases hchain

end Chains

/-! ## What is sent -/

section Sending

variable {strings : Strings} {collate : Text → Text} {request : Upsert} {item next : QueryItem}
  {query : Query} {db : Database}

theorem fold_quote (strings : Strings) {string : List UInt8} (hnul : 0 ∉ string) :
    fold (quote strings string) = fold (escaped string) := by
  unfold quote
  split_ifs with hcount
  · rw [escaped_eq_self hcount]
    have hrank := strings.rank_memstrlink (.ofBytes string)
    rw [CString.ofBytes_val ⟨string, hnul⟩] at hrank ⊢
    exact hrank
  · rfl

def quoteAnswers (strings : Strings) : QuoteAnswers :=
  ⟨fun _ ↦ quote strings, fun _ _ hnul ↦ fold_quote strings hnul⟩

/-- The statement of an item. -/
def QueryItem.text (strings : Strings) (item : QueryItem) : Option Text :=
  queryTable[item.queryId]?.map fun query ↦
    substituted query (renderings (quoteAnswers strings) item.args)

/-- The statement of an item is shorter than the buffer. -/
def QueryItem.Fits (strings : Strings) (item : QueryItem) : Prop :=
  ∀ text ∈ item.text strings, text.length < maxStringLength

instance QueryItem.decidableFits (strings : Strings) (item : QueryItem) :
    Decidable (item.Fits strings) :=
  inferInstanceAs (Decidable (∀ _ ∈ _, _))

theorem quotes_not_mem {pattern : Text} (hpattern : pattern ∈ queryTable) : 39 ∉ pattern := by
  have hall : ∀ pattern ∈ queryTable, 39 ∉ pattern := by decide +kernel
  exact hall pattern hpattern

theorem process_eq (hstands : Stands collate item query)
    (hargs : ∀ arg ∈ item.args, Readable (quote strings) arg) (hfits : item.Fits strings) :
    item.process strings collate db =
      (execute collate db query).map fun r ↦ (r.1, r.2.count) := by
  obtain ⟨pattern, statement, hpattern, hcount, hprepared, hperform⟩ := hstands
  obtain ⟨read, htokens, hparse⟩ := Option.bind_eq_some_iff.mp hprepared
  have hlength : (substituted pattern (renderings (quoteAnswers strings) item.args)).length <
      maxStringLength := by
    apply hfits
    rw [QueryItem.text, hpattern]
    rfl
  obtain ⟨text, hsend, hread⟩ := @dbQuery_tokens _ _ (quoteAnswers strings) _ (by decide) _
    (quotes_not_mem (List.mem_of_getElem? hpattern)) hcount (fun _ ↦ hargs) hlength htokens
  have houtcome : item.outcome strings = some (.send text) := by
    rw [QueryItem.outcome, hpattern]
    exact congrArg some hsend
  have hstatement : readStatement text = some statement := by
    rw [readStatement, hread]
    exact hparse
  have hprocess : item.process strings collate db =
      (readStatement text).bind (perform collate db) := by
    rw [QueryItem.process, houtcome]
  rw [hprocess, hstatement]
  exact hperform db

end Sending

/-! ## The rows -/

section Rows

/-- The rows that are hit are written.  Without one a row is added. -/
def upsertRows {Row : Type} (hit : Row → Prop) [DecidablePred hit] (write : Row → Row) (new : Row)
    (rows : List Row) : List Row :=
  if ∃ row ∈ rows, hit row then rows.map fun row ↦ if hit row then write row else row
  else rows ++ [new]

theorem upsertRows_congr {Row : Type} {hit hit' : Row → Prop} [DecidablePred hit]
    [DecidablePred hit'] {write write' : Row → Row} {new new' : Row} {rows : List Row}
    (hhit : ∀ row, hit row ↔ hit' row) (hwrite : ∀ row, hit row → write row = write' row)
    (hnew : (¬ ∃ row ∈ rows, hit row) → new = new') :
    upsertRows hit write new rows = upsertRows hit' write' new' rows := by
  have hexists : (∃ row ∈ rows, hit row) ↔ ∃ row ∈ rows, hit' row := by simp only [hhit]
  unfold upsertRows
  by_cases hany : ∃ row ∈ rows, hit row
  · rw [if_pos hany, if_pos (hexists.mp hany)]
    apply List.map_congr_left
    intro row _
    by_cases hrow : hit row
    · rw [if_pos hrow, if_pos ((hhit row).mp hrow), hwrite row hrow]
    · rw [if_neg hrow, if_neg fun hrow' ↦ hrow ((hhit row).mpr hrow')]
  · rw [if_neg hany, if_neg fun hany' ↦ hany (hexists.mpr hany'), hnew hany]

/-- What the two queries of a save make of the tables. -/
def saved (collate : Text → Text) (db : Database) (check : Query) : Option Database := do
  let (db, found) ← execute collate db check
  let next ← check.chain found.count
  let (db, _) ← execute collate db next
  some db

variable {collate : Text → Text} {db : Database}

theorem length_filter_ne_zero {Row : Type} {rows : List Row} {hit : Row → Prop}
    [DecidablePred hit] : (rows.filter fun row ↦ hit row).length ≠ 0 ↔ ∃ row ∈ rows, hit row := by
  rw [Nat.ne_zero_iff_zero_lt, List.length_pos_iff_exists_mem]
  simp

/-- The `UPDATE` or the `INSERT`, whichever the count of rows asks for. -/
theorem saved_eq {check update insert : Query} {found : Result} {p : Prop} [Decidable p]
    (hcheck : execute collate db check = some (db, found))
    (hchain : check.chain found.count = some (if found.count ≠ 0 then update else insert))
    (hcount : found.count ≠ 0 ↔ p) :
    saved collate db check =
      (execute collate db (if p then update else insert)).map Prod.fst := by
  have hnext : saved collate db check =
      (check.chain found.count).bind fun next ↦
        (execute collate db next).bind fun r ↦ some r.1 := by
    rw [saved, hcheck]
    rfl
  rw [hnext, hchain, Option.bind_some]
  simp only [hcount]
  cases execute collate db (if p then update else insert) <;> rfl

theorem saved_checkSetting (name value : Text) : saved collate db (.checkSetting name value) =
    some { db with
      settings := upsertRows (fun row ↦ collate row.1 = collate name) (fun row ↦ (row.1, value))
        (name, value) db.settings } := by
  have hvalues : db.valuesOf collate name = [] ↔
      ¬ ∃ row ∈ db.settings, collate row.1 = collate name := by
    simp [Database.valuesOf, List.filter_eq_nil_iff]
  rw [saved_eq (p := ∃ row ∈ db.settings, collate row.1 = collate name) rfl rfl]
  · unfold upsertRows
    split_ifs with hany
    · rfl
    · simp only [execute, if_pos (hvalues.mpr hany)]
      rfl
  · have hcount : (Result.settings ((db.valuesOf collate name).take 1)).count ≠ 0 ↔
        db.valuesOf collate name ≠ [] := by
      simp [Result.count]
    rw [hcount, ne_eq, hvalues, not_not]

theorem saved_checkAccount (account : Account) : saved collate db (.checkAccount account) =
    some { db with
      accounts := upsertRows (fun row ↦ row.id = account.id) (fun _ ↦ account)
        { account with id := db.nextAccount } db.accounts
      nextAccount := if ∃ row ∈ db.accounts, row.id = account.id then db.nextAccount
        else db.nextAccount + 1 } := by
  rw [saved_eq (p := ∃ row ∈ db.accounts, row.id = account.id) rfl rfl]
  · unfold upsertRows
    split_ifs <;> rfl
  · exact length_filter_ne_zero

theorem saved_checkPc (pc : Pc) : saved collate db (.checkPc pc) =
    some { db with
      pcs := upsertRows (fun row ↦ row.id = pc.id) (fun _ ↦ pc)
        { pc with id := db.nextPc } db.pcs
      nextPc := if ∃ row ∈ db.pcs, row.id = pc.id then db.nextPc else db.nextPc + 1 } := by
  rw [saved_eq (p := ∃ row ∈ db.pcs, row.id = pc.id) rfl rfl]
  · unfold upsertRows
    split_ifs <;> rfl
  · rw [← length_filter_ne_zero]
    simp [Result.count]

theorem saved_checkPcAttribs (attribs : PcAttribs)
    (haccepted : (∃ row ∈ db.pcattribs, row.pcId = attribs.pcId) →
      ∃ row ∈ db.pcattribs, row.pcId = attribs.pcId ∧
        collate row.attribsrc = collate attribs.attribsrc) :
    saved collate db (.checkPcAttribs attribs) =
      some { db with
        pcattribs := upsertRows (fun row ↦ row.pcId = attribs.pcId ∧
          collate row.attribsrc = collate attribs.attribsrc)
            (fun row ↦ { row with attribjson := attribs.attribjson }) attribs db.pcattribs } := by
  rw [saved_eq (p := ∃ row ∈ db.pcattribs, row.pcId = attribs.pcId ∧
    collate row.attribsrc = collate attribs.attribsrc) rfl rfl]
  · unfold upsertRows
    split_ifs with hany
    · rfl
    · simp only [execute, if_neg fun hpc ↦ hany (haccepted hpc)]
      rfl
  · exact length_filter_ne_zero

end Rows

/-! ## What a save writes -/

section Saves

variable (strings : Strings) (collate : Text → Text) (db : Database)

/-- The rows that a save is for have the values of the save, or there is a new one. -/
def Upsert.Writes (db' : Database) : Upsert → Prop
  | setSetting name value =>
      db' = { db with
        settings := upsertRows (fun row ↦ collate row.1 = collate name.val)
          (fun row ↦ (row.1, value.val)) (name.val, value.val) db.settings }
  | saveAccount id email passwd ansi confirmed confcode =>
      ∃ fresh next, (∀ row ∈ db.accounts, row.id ≠ fresh) ∧
        db' = { db with
          accounts := upsertRows (fun row ↦ row.id = id.toInt)
            (fun row ↦ ⟨row.id, email.val, passwd.val, ansi, confirmed,
              (confcodeText confcode).val⟩)
            ⟨fresh, email.val, passwd.val, ansi, confirmed, (confcodeText confcode).val⟩ db.accounts
          nextAccount := next }
  | savePc id accountId name =>
      ∃ fresh next, (∀ row ∈ db.pcs, row.id ≠ fresh) ∧
        db' = { db with
          pcs := upsertRows (fun row ↦ row.id = id.toInt)
            (fun row ↦ ⟨row.id, accountId.toInt, name.val⟩)
            ⟨fresh, accountId.toInt, name.val⟩ db.pcs
          nextPc := next }
  | savePcAttribs pcId source json =>
      db' = { db with
        pcattribs := upsertRows
          (fun row ↦ row.pcId = pcId.toInt ∧ collate row.attribsrc = collate source.val)
          (fun row ↦ { row with attribjson := json.val }) ⟨pcId.toInt, source.val, json.val⟩
          db.pcattribs }

/-- The number of rows with the key of a save. -/
def Upsert.found : Upsert → ℕ
  | setSetting name _ => db.settings.countP fun row ↦ collate row.1 = collate name.val
  | saveAccount id _ _ _ _ _ => db.accounts.countP fun row ↦ row.id = id.toInt
  | savePc id _ _ => db.pcs.countP fun row ↦ row.id = id.toInt
  | savePcAttribs pcId source _ => db.pcattribs.countP fun row ↦
      row.pcId = pcId.toInt ∧ collate row.attribsrc = collate source.val

/-- The statement behind the `SELECT` is not refused for its key: only `pcattribs` has a key that is
given and not compared. -/
def Upsert.Accepted : Upsert → Prop
  | savePcAttribs pcId source json => (∃ row ∈ db.pcattribs, row.pcId = pcId.toInt) →
      (savePcAttribs pcId source json).found collate db ≠ 0
  | _ => True

/-- `AUTO_INCREMENT` gives ids that no row has. -/
structure Counted : Prop where
  accounts : ∀ row ∈ db.accounts, row.id < db.nextAccount
  pcs : ∀ row ∈ db.pcs, row.id < db.nextPc

/-- A string that is written: it is the spelling that is linked, and it keeps its backslashes. -/
def WrittenAs (value : CString) : Prop :=
  strings.memstrlink value = value ∧ KeepsBackslashes value.val

/-- A string that is looked for: the spelling that is linked finds the rows of the string, and it is
the string where it is written. -/
def FoundAs (key : CString) (found : ℕ) : Prop :=
  KeepsBackslashes (strings.memstrlink key).val ∧
    collate (strings.memstrlink key).val = collate key.val ∧
    (found = 0 → strings.memstrlink key = key)

/-- The strings of a save reach the tables as they are. -/
def Upsert.Carried (request : Upsert) : Prop :=
  match request with
  | setSetting name value =>
      FoundAs strings collate name (request.found collate db) ∧ WrittenAs strings value
  | saveAccount _ email passwd _ _ confcode => WrittenAs strings email ∧
      WrittenAs strings passwd ∧ WrittenAs strings (confcodeText confcode)
  | savePc _ _ name => WrittenAs strings name
  | savePcAttribs _ source json =>
      FoundAs strings collate source (request.found collate db) ∧ WrittenAs strings json

/-- The `SELECT` and the statement behind it are shorter than the buffer. -/
def Upsert.Fits (request : Upsert) : Prop :=
  ∀ item ∈ request.queued strings, item.Fits strings ∧
    ∀ next ∈ item.chain (request.found collate db), next.Fits strings

instance Upsert.decidableFits (request : Upsert) : Decidable (request.Fits strings collate db) :=
  inferInstanceAs (Decidable (∀ _ ∈ _, _ ∧ ∀ _ ∈ _, _))

end Saves

section Results

variable {strings : Strings} {collate : Text → Text} {db : Database} {request : Upsert}
  {item next : QueryItem} {count : ℕ}

/-- A linked string is linked again, or escaped. -/
theorem quote_linked (value : CString) :
    quote strings (strings.memstrlink value).val = escaped (strings.memstrlink value).val := by
  unfold quote
  split_ifs with hcount
  · rw [CString.ofBytes_val, strings.memstrlink_memstrlink, escaped_eq_self hcount]
  · rfl

theorem readable_bindString {value : CString}
    (hkeeps : KeepsBackslashes (strings.memstrlink value).val) :
    Readable (quote strings) (bindString strings value) := by
  rintro string ⟨⟩
  exact ⟨quote_linked value, hkeeps⟩

theorem WrittenAs.readable {value : CString} (h : WrittenAs strings value) :
    Readable (quote strings) (bindString strings value) := by
  apply readable_bindString
  rw [h.1]
  exact h.2

theorem readable_bindBool (b : Bool) : Readable (quote strings) (bindBool b) :=
  trivial

/-- The arguments of a save are read from their texts. -/
theorem Upsert.Carried.readable (h : request.Carried strings collate db)
    (hqueued : request.queued strings = some item) :
    ∀ arg ∈ item.queryData, Readable (quote strings) arg := by
  cases request with
  | setSetting name value =>
      cases hqueued
      simp only [List.forall_mem_cons, List.not_mem_nil, false_implies, implies_true, and_true]
      exact ⟨readable_bindString h.1.1, h.2.readable⟩
  | saveAccount id email passwd ansi confirmed confcode =>
      cases hqueued
      simp only [List.forall_mem_cons, List.not_mem_nil, false_implies, implies_true, and_true]
      exact ⟨trivial, h.1.readable, h.2.1.readable, readable_bindBool ansi,
        readable_bindBool confirmed, h.2.2.readable, trivial⟩
  | savePc id accountId name =>
      cases hqueued
      simp only [List.forall_mem_cons, List.not_mem_nil, false_implies, implies_true, and_true]
      exact ⟨trivial, trivial, h.readable, trivial⟩
  | savePcAttribs pcId source json =>
      obtain ⟨-, hitem⟩ := Option.ite_none_left_eq_some.mp hqueued
      cases hitem
      simp only [List.forall_mem_cons, List.not_mem_nil, false_implies, implies_true, and_true]
      exact ⟨trivial, readable_bindString h.1.1, h.2.readable⟩

/-- A chain function only looks whether there are rows. -/
theorem chain_congr {count' : ℕ} (h : count ≠ 0 ↔ count' ≠ 0) :
    item.chain count = item.chain count' := by
  unfold QueryItem.chain chainSetSetting chainSaveAccount chainSavePc chainSavePcAttribs
  simp only [h]

/-- The `SELECT` finds rows if there are rows with the key, and changes none. -/
theorem Upsert.Carried.execute_check (h : request.Carried strings collate db) :
    ∃ found, execute collate db (request.query strings) = some (db, found) ∧
      (found.count ≠ 0 ↔ request.found collate db ≠ 0) := by
  cases request with
  | setSetting name value =>
      refine ⟨_, rfl, ?_⟩
      simp [Result.count, Database.valuesOf, Upsert.found, h.1.2.1]
  | saveAccount id email passwd ansi confirmed confcode =>
      refine ⟨_, rfl, ?_⟩
      simp [Result.count, Upsert.found]
  | savePc id accountId name =>
      refine ⟨_, rfl, ?_⟩
      simp [Result.count, Upsert.found]
  | savePcAttribs pcId source json =>
      refine ⟨_, rfl, ?_⟩
      simp [Result.count, Upsert.found, h.1.2.1]

/-- The statements of a save do what its queries do. -/
theorem process_eq_saved (hqueued : request.queued strings = some item)
    (hcarried : request.Carried strings collate db) (hfits : request.Fits strings collate db) :
    request.process strings collate db = saved collate db (request.query strings) := by
  obtain ⟨hfirst, hsecond⟩ := hfits item hqueued
  have hread := hcarried.readable hqueued
  obtain ⟨found, hcheck, hcount⟩ := hcarried.execute_check
  obtain ⟨next, query, hnext, hquery, hstands⟩ := @stands_chain _ collate _ _ hqueued found.count
  have hselect : item.process strings collate db = some (db, found.count) := by
    rw [process_eq (stands_queued hqueued) (fun arg harg ↦ hread arg (List.mem_of_mem_take harg))
      hfirst, hcheck]
    rfl
  have hwrite : next.process strings collate db =
      (execute collate db query).map fun r ↦ (r.1, r.2.count) := by
    apply process_eq hstands
    · exact fun arg harg ↦ hread arg (chain_subset hnext (List.mem_of_mem_take harg))
    · exact hsecond next (chain_congr hcount ▸ hnext)
  have hprocess : request.process strings collate db =
      (next.process strings collate db).bind fun r ↦ some r.1 := by
    rw [Upsert.process, hqueued]
    change ((item.process strings collate db).bind fun r ↦ (item.chain r.2).bind fun next ↦
      (next.process strings collate r.1).bind fun r ↦ some r.1) = _
    rw [hselect, Option.bind_some, hnext, Option.bind_some]
  have hsaved : saved collate db (request.query strings) =
      (execute collate db query).bind fun r ↦ some r.1 := by
    rw [saved, hcheck]
    change (((request.query strings).chain found.count).bind fun next ↦
      (execute collate db next).bind fun r ↦ some r.1) = _
    rw [hquery, Option.bind_some]
  rw [hprocess, hwrite, hsaved]
  cases execute collate db query <;> rfl

theorem countP_eq_zero {Row : Type} {rows : List Row} {hit : Row → Prop} [DecidablePred hit]
    (hnone : ¬ ∃ row ∈ rows, hit row) : rows.countP (fun row ↦ hit row) = 0 := by
  simpa [List.countP_eq_zero] using hnone

theorem saved_writes (hcounted : Counted db) (haccepted : request.Accepted collate db)
    (hcarried : request.Carried strings collate db) :
    ∃ db', saved collate db (request.query strings) = some db' ∧
      request.Writes collate db db' := by
  cases request with
  | setSetting name value =>
      obtain ⟨⟨-, hcollate, hnew⟩, hvalue, -⟩ := hcarried
      refine ⟨_, saved_checkSetting _ _, ?_⟩
      rw [hcollate, hvalue, Upsert.Writes]
      congr 1
      refine upsertRows_congr (fun _ ↦ Iff.rfl) (fun _ _ ↦ rfl) fun hnone ↦ ?_
      rw [hnew (countP_eq_zero hnone)]
  | saveAccount id email passwd ansi confirmed confcode =>
      obtain ⟨⟨hemail, -⟩, ⟨hpasswd, -⟩, hconfcode, -⟩ := hcarried
      refine ⟨_, saved_checkAccount _, db.nextAccount,
        if ∃ row ∈ db.accounts, row.id = id.toInt then db.nextAccount else db.nextAccount + 1,
          fun row hrow ↦ ?_, ?_⟩
      · exact (hcounted.accounts row hrow).ne
      · rw [hemail, hpasswd, hconfcode]
        congr 1
        refine upsertRows_congr (fun _ ↦ Iff.rfl) (fun row hrow ↦ ?_) fun _ ↦ rfl
        rw [hrow]
  | savePc id accountId name =>
      obtain ⟨hname, -⟩ := hcarried
      refine ⟨_, saved_checkPc _, db.nextPc,
        if ∃ row ∈ db.pcs, row.id = id.toInt then db.nextPc else db.nextPc + 1,
          fun row hrow ↦ ?_, ?_⟩
      · exact (hcounted.pcs row hrow).ne
      · rw [hname]
        congr 1
        refine upsertRows_congr (fun _ ↦ Iff.rfl) (fun row hrow ↦ ?_) fun _ ↦ rfl
        rw [hrow]
  | savePcAttribs pcId source json =>
      obtain ⟨⟨-, hcollate, hnew⟩, hjson, -⟩ := hcarried
      refine ⟨_, saved_checkPcAttribs _ fun hpc ↦ ?_, ?_⟩
      · rw [hcollate]
        by_contra hnone
        exact haccepted hpc (countP_eq_zero hnone)
      · rw [hcollate, hjson, Upsert.Writes]
        congr 1
        refine upsertRows_congr (fun _ ↦ Iff.rfl) (fun _ _ ↦ rfl) fun hnone ↦ ?_
        rw [hnew (countP_eq_zero hnone)]

/-- Where the strings of a save reach the tables as they are and its statements fit into the buffer,
the save writes the rows with its key, or a new one, and nothing else. -/
theorem upsert_writes (hcounted : Counted db) (hqueued : request.queued strings = some item)
    (haccepted : request.Accepted collate db) (hcarried : request.Carried strings collate db)
    (hfits : request.Fits strings collate db) :
    ∃ db', request.process strings collate db = some db' ∧ request.Writes collate db db' := by
  rw [process_eq_saved hqueued hcarried hfits]
  exact saved_writes hcounted haccepted hcarried

end Results

end HavokMud.Mysql.Upserts
