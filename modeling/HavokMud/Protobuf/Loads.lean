import HavokMud.Mysql.Characters
import HavokMud.Protobuf.Threads

/-!
# The requests that load

A `pb_*` function that loads something makes a request of its key, `protobufHandle` gives it to the
`db_mysql_*` function of its type, and a callback makes the response of the rows that were found.
The result of such a function may be NULL, and there is no result when a NULL pointer is followed on
the way.
-/

namespace HavokMud.Protobuf

open Mysql (Text Database Account Pc Query Result execute)
open Mysql.Characters (loadPcAttribs decode)

/-! ## Messages -/

/-- `ReqSettingsType`. -/
structure ReqSettingsType where
  settingName : Option Text
  settingValue : Option Text

/-- `ReqAccountType`. -/
structure ReqAccountType where
  id : ℤ
  email : Option Text
  passwd : Option Text
  ansi : Bool
  confirmed : Bool
  confcode : Option Text

/-- `ReqPCType`. -/
structure ReqPCType where
  id : ℤ
  accountId : ℤ
  name : Option Text
  attribs : Option Text

/-- The data of a request. -/
inductive ReqData
  | settings (data : ReqSettingsType)
  | account (data : ReqAccountType)
  | pc (data : ReqPCType)

/-- `HavokResponse`. -/
structure HavokResponse where
  requestType : ReqType
  settingsData : Option ReqSettingsType
  accountData : Option ReqAccountType
  pcData : List ReqPCType

/-- What the `db_*` functions work on: the tables, unless the program has crashed. -/
structure World where
  db : Database
  running : Bool

/-! ## Callbacks -/

def resultGetSetting (name : Text) (values : List Text) : Option HavokResponse :=
  values.head?.map fun value ↦ ⟨.getSetting, some ⟨some name, some value⟩, none, []⟩

def resultLoadAccount (rows : List Account) : Option HavokResponse :=
  rows.head?.map fun row ↦ ⟨.loadAccount, none, some ⟨row.id, some row.email, some row.passwd,
    row.ansi, row.confirmed, some row.confcode⟩, []⟩

def dbFillRowLoadPc (row : Pc) : ReqPCType :=
  ⟨row.id, row.accountId, some row.name, none⟩

def resultGetPcList (rows : List Pc) : Option HavokResponse :=
  if rows = [] then none else some ⟨.getPcList, none, none, rows.map dbFillRowLoadPc⟩

/-- `result_load_pc`, with the type of a list. -/
def resultLoadPc (rows : List Pc) : Option HavokResponse :=
  rows.head?.map fun row ↦ ⟨.getPcList, none, none, [dbFillRowLoadPc row]⟩

def resultFindPc (rows : List Pc) : Option HavokResponse :=
  rows.head?.map fun row ↦ ⟨.findPc, none, none, [dbFillRowLoadPc row]⟩

/-! ## The functions of the database -/

/-- The rows of `settings`. -/
def settingRows : Result → List Text
  | .settings values => values
  | _ => []

/-- The rows of `accounts`. -/
def accountRows : Result → List Account
  | .accounts rows => rows
  | _ => []

/-- The rows of `pcs`. -/
def pcRows : Result → List Pc
  | .pcs rows => rows
  | _ => []

section Server

variable (collate : Text → Text) (db : Database)

/-- What the callback of a query gets. -/
def resultOf (query : Query) : Result :=
  ((execute collate db query).map Prod.snd).getD (.done 0)

def dbMysqlGetSetting : ReqData → Option (Option HavokResponse)
  | .settings ⟨some name, _⟩ =>
      some (resultGetSetting name (settingRows (resultOf collate db (.getSetting name))))
  | _ => some none

def dbMysqlLoadAccount : ReqData → Option (Option HavokResponse)
  | .account { email := some email, .. } =>
      some (resultLoadAccount (accountRows (resultOf collate db (.loadAccount email))))
  | _ => some none

def dbMysqlLoadAccountByConfirm : ReqData → Option (Option HavokResponse)
  | .account { confcode := some confcode, .. } =>
      some (resultLoadAccount (accountRows (resultOf collate db (.loadAccountByConfirm confcode))))
  | _ => some none

def dbMysqlGetPcList : ReqData → Option (Option HavokResponse)
  | .account data =>
      if data.id = 0 then some none
      else some (resultGetPcList (pcRows (resultOf collate db (.getPcList data.id))))
  | _ => some none

/-- `db_mysql_load_pc`, which stores the attributes in the response without a look at it. -/
def dbMysqlLoadPc : ReqData → Option (Option HavokResponse)
  | .pc data =>
      if data.accountId = 0 ∨ data.id = 0 then some none
      else
        let rows := pcRows (resultOf collate db (.loadPc data.accountId data.id))
        (resultLoadPc rows).map fun resp ↦ some { resp with
          pcData := resp.pcData.modifyHead fun pc ↦
            { pc with attribs := loadPcAttribs collate db data.id } }
  | _ => some none

def dbMysqlFindPc : ReqData → Option (Option HavokResponse)
  | .pc { name := some name, .. } =>
      some (resultFindPc (pcRows (resultOf collate db (.findPc name))))
  | _ => some none

end Server

section Requests

variable (collate : Text → Text)

/-- The function of a request that loads. -/
def dbMysql (db : Database) (data : ReqData) : ReqType → Option (Option HavokResponse)
  | .getSetting => dbMysqlGetSetting collate db data
  | .loadAccount => dbMysqlLoadAccount collate db data
  | .loadAccountByConfirm => dbMysqlLoadAccountByConfirm collate db data
  | .getPcList => dbMysqlGetPcList collate db data
  | .loadPc => dbMysqlLoadPc collate db data
  | .findPc => dbMysqlFindPc collate db data
  | _ => some none

/-- The `db_*` functions as `ProtobufThread` calls them. -/
def dbFunctions (kind : ReqType) (req : HavokRequest ReqData) (world : World) :
    Option HavokResponse × World :=
  match req.data with
  | none => (none, world)
  | some data =>
      match dbMysql collate world.db data kind with
      | none => (none, { world with running := false })
      | some resp => (resp, world)

/-- `protobufQueue` for a caller that blocks. -/
def protobufQueue (db : Database) (req : HavokRequest ReqData) : Option (Option HavokResponse) :=
  let answer := protobufHandle (dbFunctions collate) req ⟨db, true⟩
  if answer.2.running then some answer.1 else none

end Requests

/-! ## The functions for the rest of the program -/

/-- The fields of a `PlayerPC_t` that are loaded. -/
structure LoadedPC where
  id : ℤ
  accountId : ℤ
  name : Option Text
  trees : Attributes.PlayerPC

section Api

variable (collate : Text → Text) (db : Database)

/-- `pb_get_setting`. -/
def pbGetSetting : Option Text → Option (Option Text)
  | none => some none
  | some name => do
      let resp ← protobufQueue collate db
        ⟨1, .getSetting, some (.settings ⟨some name, none⟩), none, none⟩
      return resp.bind fun resp ↦ resp.settingsData.bind ReqSettingsType.settingValue

/-- `pb_load_account`. -/
def pbLoadAccount : Option Text → Option (Option ReqAccountType)
  | none => some none
  | some email => do
      let resp ← protobufQueue collate db
        ⟨1, .loadAccount, none, some (.account ⟨0, some email, none, false, false, none⟩), none⟩
      return resp.bind HavokResponse.accountData

/-- `pb_load_account_by_confirm`. -/
def pbLoadAccountByConfirm : Option Text → Option (Option ReqAccountType)
  | none => some none
  | some code => do
      let resp ← protobufQueue collate db
        ⟨1, .loadAccountByConfirm, none, some (.account ⟨0, none, none, false, false, some code⟩),
          none⟩
      return resp.bind HavokResponse.accountData

/-- A pc with NULL trees. -/
def ReqPCType.bare (pc : ReqPCType) : LoadedPC :=
  ⟨pc.id, pc.accountId, pc.name, .fresh⟩

/-- `pb_get_pc_list`.  The entry of zeros behind the pcs is left out. -/
def pbGetPcList (accountId : ℤ) : Option (Option (List LoadedPC)) :=
  if accountId = 0 then some none
  else do
    let resp ← protobufQueue collate db
      ⟨1, .getPcList, none, some (.account ⟨accountId, none, none, false, false, none⟩), none⟩
    return resp.bind fun resp ↦
      if resp.pcData = [] then none else some (resp.pcData.map ReqPCType.bare)

/-- `pb_load_pc`. -/
def pbLoadPc (accountId id : ℤ) : Option (Option LoadedPC) :=
  if accountId = 0 ∨ id = 0 then some none
  else do
    let resp ← protobufQueue collate db
      ⟨1, .loadPc, none, none, some (.pc ⟨id, accountId, none, none⟩)⟩
    match resp.bind fun resp ↦ resp.pcData.head? with
    | none => return none
    | some pc =>
        let trees ← decode pc.attribs
        return some { pc.bare with trees := trees }

/-- `pb_find_pc`. -/
def pbFindPc : Option Text → Option (Option LoadedPC)
  | none => some none
  | some name => do
      let resp ← protobufQueue collate db
        ⟨1, .findPc, none, none, some (.pc ⟨0, 0, some name, none⟩)⟩
      return resp.bind fun resp ↦ resp.pcData.head?.map ReqPCType.bare

end Api

/-! ## Keys without rows -/

/-- A call of one of these functions. -/
inductive Load
  | getSetting (name : Option Text)
  | loadAccount (email : Option Text)
  | loadAccountByConfirm (code : Option Text)
  | getPcList (accountId : ℤ)
  | loadPc (accountId id : ℤ)
  | findPc (name : Option Text)

inductive Loaded
  | setting (value : Text)
  | account (account : ReqAccountType)
  | pcs (pcs : List LoadedPC)
  | pc (pc : LoadedPC)

namespace Load

/-- What is looked for.  A key that is NULL is not looked for. -/
def query : Load → Option Query
  | .getSetting name => name.map .getSetting
  | .loadAccount email => email.map .loadAccount
  | .loadAccountByConfirm code => code.map .loadAccountByConfirm
  | .getPcList accountId => some (.getPcList accountId)
  | .loadPc accountId id => some (.loadPc accountId id)
  | .findPc name => name.map .findPc

/-- `db_mysql_load_pc` is called, and goes on behind its query. -/
def follows : Load → Bool
  | .loadPc accountId id => accountId ≠ 0 ∧ id ≠ 0
  | _ => false

variable (collate : Text → Text) (db : Database)

def run : Load → Option (Option Loaded)
  | .getSetting name => (pbGetSetting collate db name).map (Option.map .setting)
  | .loadAccount email => (pbLoadAccount collate db email).map (Option.map .account)
  | .loadAccountByConfirm code => (pbLoadAccountByConfirm collate db code).map (Option.map .account)
  | .getPcList accountId => (pbGetPcList collate db accountId).map (Option.map .pcs)
  | .loadPc accountId id => (pbLoadPc collate db accountId id).map (Option.map .pc)
  | .findPc name => (pbFindPc collate db name).map (Option.map .pc)

/-- There is no row for the key. -/
def Missing (load : Load) : Prop :=
  ∀ query ∈ load.query, (resultOf collate db query).count = 0

end Load

section Missing

variable {collate : Text → Text} {db : Database}

/-- What `ProtobufThread` makes of a request whose data are there. -/
theorem protobufQueue_eq {req : HavokRequest ReqData} {data : ReqData}
    (hversion : req.protocolVersion = 1) (hdata : req.data = some data) :
    protobufQueue collate db req = dbMysql collate db data req.requestType := by
  have hhandle : protobufHandle (dbFunctions collate) req ⟨db, true⟩ =
      dbFunctions collate req.requestType req ⟨db, true⟩ := by
    unfold protobufHandle
    rw [if_neg (not_not_intro hversion), if_neg (by simp [hdata])]
  unfold protobufQueue
  rw [hhandle]
  unfold dbFunctions
  rw [hdata]
  dsimp only
  cases dbMysql collate db data req.requestType with
  | none => rfl
  | some resp => rfl

/-! What a function returns for a key that it looks for. -/

theorem pbGetSetting_some (name : Text) :
    pbGetSetting collate db (some name) =
      some (settingRows (resultOf collate db (.getSetting name))).head? := by
  unfold pbGetSetting
  dsimp only
  rw [protobufQueue_eq rfl rfl]
  unfold dbMysql dbMysqlGetSetting resultGetSetting
  dsimp only
  cases settingRows (resultOf collate db (.getSetting name)) with
  | nil => rfl
  | cons value values => rfl

theorem pbLoadAccount_some (email : Text) :
    pbLoadAccount collate db (some email) =
      some ((resultLoadAccount (accountRows (resultOf collate db (.loadAccount email)))).bind
        HavokResponse.accountData) := by
  unfold pbLoadAccount
  dsimp only
  rw [protobufQueue_eq rfl rfl]
  rfl

theorem pbLoadAccountByConfirm_some (code : Text) :
    pbLoadAccountByConfirm collate db (some code) =
      some ((resultLoadAccount
        (accountRows (resultOf collate db (.loadAccountByConfirm code)))).bind
          HavokResponse.accountData) := by
  unfold pbLoadAccountByConfirm
  dsimp only
  rw [protobufQueue_eq rfl rfl]
  rfl

theorem pbGetPcList_eq {accountId : ℤ} (hzero : accountId ≠ 0) :
    pbGetPcList collate db accountId =
      some ((resultGetPcList (pcRows (resultOf collate db (.getPcList accountId)))).bind
        fun resp ↦ if resp.pcData = [] then none else some (resp.pcData.map ReqPCType.bare)) := by
  unfold pbGetPcList
  rw [if_neg hzero, protobufQueue_eq rfl rfl]
  unfold dbMysql dbMysqlGetPcList
  dsimp only
  rw [if_neg hzero]
  rfl

/-- There is no result without a row, and the attributes of the row are decoded as they are. -/
theorem pbLoadPc_eq {accountId id : ℤ} (hzero : ¬ (accountId = 0 ∨ id = 0)) :
    pbLoadPc collate db accountId id =
      (pcRows (resultOf collate db (.loadPc accountId id))).head?.bind fun row ↦
        (decode (loadPcAttribs collate db id)).map fun trees ↦
          some { (dbFillRowLoadPc row).bare with trees := trees } := by
  unfold pbLoadPc
  rw [if_neg hzero, protobufQueue_eq rfl rfl]
  unfold dbMysql dbMysqlLoadPc
  dsimp only
  rw [if_neg hzero]
  cases pcRows (resultOf collate db (.loadPc accountId id)) with
  | nil => rfl
  | cons row rows =>
      change (decode (loadPcAttribs collate db id) >>= fun trees ↦ _) = _
      cases decode (loadPcAttribs collate db id) with
      | none => rfl
      | some trees => rfl

theorem pbFindPc_some (name : Text) :
    pbFindPc collate db (some name) =
      some ((pcRows (resultOf collate db (.findPc name))).head?.map fun row ↦
        (dbFillRowLoadPc row).bare) := by
  unfold pbFindPc
  dsimp only
  rw [protobufQueue_eq rfl rfl]
  unfold dbMysql dbMysqlFindPc resultFindPc
  dsimp only
  cases pcRows (resultOf collate db (.findPc name)) with
  | nil => rfl
  | cons row rows => rfl

theorem rows_eq_nil {result : Result} (h : result.count = 0) :
    settingRows result = [] ∧ accountRows result = [] ∧ pcRows result = [] := by
  cases result with
  | settings values => exact ⟨List.eq_nil_of_length_eq_zero h, rfl, rfl⟩
  | accounts rows => exact ⟨rfl, List.eq_nil_of_length_eq_zero h, rfl⟩
  | pcs rows => exact ⟨rfl, rfl, List.eq_nil_of_length_eq_zero h⟩
  | attribs _ | done _ => exact ⟨rfl, rfl, rfl⟩

/-- The callback gets no rows. -/
theorem Load.Missing.rows_eq_nil {load : Load} (h : load.Missing collate db) {query : Query}
    (hquery : load.query = some query) :
    settingRows (resultOf collate db query) = [] ∧ accountRows (resultOf collate db query) = [] ∧
      pcRows (resultOf collate db query) = [] :=
  Protobuf.rows_eq_nil (h query hquery)

/-- A key without a row, by the kinds of keys.  Only `db_mysql_load_pc` does more than to return the
NULL response. -/
theorem run_of_missing {load : Load} (h : load.Missing collate db) :
    load.run collate db = if load.follows then none else some none := by
  cases load with
  | getSetting name =>
      cases name with
      | none => rfl
      | some name =>
          obtain ⟨hrows, -⟩ := h.rows_eq_nil rfl
          rw [Load.run, pbGetSetting_some, hrows]
          rfl
  | loadAccount email =>
      cases email with
      | none => rfl
      | some email =>
          obtain ⟨-, hrows, -⟩ := h.rows_eq_nil rfl
          rw [Load.run, pbLoadAccount_some, hrows]
          rfl
  | loadAccountByConfirm code =>
      cases code with
      | none => rfl
      | some code =>
          obtain ⟨-, hrows, -⟩ := h.rows_eq_nil rfl
          rw [Load.run, pbLoadAccountByConfirm_some, hrows]
          rfl
  | getPcList accountId =>
      obtain ⟨-, -, hrows⟩ := h.rows_eq_nil rfl
      rw [Load.run]
      by_cases hzero : accountId = 0
      · subst hzero
        rfl
      · rw [pbGetPcList_eq hzero, hrows]
        rfl
  | loadPc accountId id =>
      obtain ⟨-, -, hrows⟩ := h.rows_eq_nil rfl
      rw [Load.run, Load.follows]
      by_cases hzero : accountId = 0 ∨ id = 0
      · rw [pbLoadPc, if_pos hzero, if_neg (by simpa [or_iff_not_imp_left] using hzero)]
        rfl
      · rw [pbLoadPc_eq hzero, hrows, if_pos (by simpa [not_or] using hzero)]
        rfl
  | findPc name =>
      cases name with
      | none => rfl
      | some name =>
          obtain ⟨-, -, hrows⟩ := h.rows_eq_nil rfl
          rw [Load.run, pbFindPc_some, hrows]
          rfl

theorem loadPcAttribs_eq_none {id : ℤ} (hrows : ∀ row ∈ db.pcattribs, row.pcId ≠ id) :
    loadPcAttribs collate db id = none := by
  have hnil : (db.pcattribs.filter fun row ↦ row.pcId = id) = [] := by
    rw [List.filter_eq_nil_iff]
    simpa using hrows
  unfold loadPcAttribs
  split_ifs
  · rfl
  · simp only [execute, hnil]

/-- `db_mysql_load_pc` builds its response of what it loads for a pc that was saved. -/
theorem dbMysqlLoadPc_eq {data : ReqPCType} (haccount : data.accountId ≠ 0) (hid : data.id ≠ 0) :
    dbMysqlLoadPc collate db (.pc data) =
      (Mysql.Characters.loadPc collate db data.accountId data.id).map fun loaded ↦
        some ⟨.getPcList, none, none, [{ dbFillRowLoadPc loaded.1 with attribs := loaded.2 }]⟩ := by
  have hzero : ¬ (data.accountId = 0 ∨ data.id = 0) := not_or.mpr ⟨haccount, hid⟩
  unfold dbMysqlLoadPc Mysql.Characters.loadPc resultOf
  dsimp only
  rw [if_neg hzero, if_neg hzero]
  simp only [execute]
  cases db.pcs.filter fun row ↦ row.accountId = data.accountId ∧ row.id = data.id with
  | nil => rfl
  | cons row rows => rfl

/-- A pc without attributes has a NULL text, which `SplitJSON` parses. -/
theorem run_of_bare {accountId id : ℤ} (hrows : ∀ row ∈ db.pcattribs, row.pcId ≠ id) :
    (Load.loadPc accountId id).run collate db = none ∨
      (Load.loadPc accountId id).run collate db = some none := by
  rw [Load.run]
  by_cases hzero : accountId = 0 ∨ id = 0
  · right
    rw [pbLoadPc, if_pos hzero]
    rfl
  · left
    rw [pbLoadPc_eq hzero, loadPcAttribs_eq_none hrows]
    cases (pcRows (resultOf collate db (.loadPc accountId id))).head? with
    | none => rfl
    | some row => rfl

variable (collate db) in
/-- The functions return NULL for a key without a row unless `db_mysql_load_pc` follows the NULL
response, and no pc without attributes is loaded. -/
theorem missing_rows_iff :
    (∀ load : Load, load.Missing collate db →
      (load.run collate db = some none ↔ load.follows = false)) ∧
    ∀ accountId id : ℤ, ¬ (Load.loadPc accountId id).Missing collate db →
      (∀ row ∈ db.pcattribs, row.pcId ≠ id) →
        ∀ pc, (Load.loadPc accountId id).run collate db ≠ some (some (.pc pc)) := by
  constructor
  · intro load hmissing
    rw [run_of_missing hmissing]
    cases load.follows <;> simp
  · intro accountId id _ hrows pc
    have hrun : (Load.loadPc accountId id).run collate db = none ∨
        (Load.loadPc accountId id).run collate db = some none := run_of_bare hrows
    rcases hrun with hrun | hrun
    · rw [hrun]
      exact fun h ↦ by cases h
    · rw [hrun]
      exact fun h ↦ by cases h

end Missing

/-- Tables without rows. -/
def noRows : Database :=
  ⟨[], [], 1, [], 1, []⟩

theorem missing_rows_setting :
    (Load.getSetting (some [97])).Missing id noRows ∧
      ((Load.getSetting (some [97])).run id noRows = some none ↔
        (Load.getSetting (some [97])).follows = false) := by
  have hmissing : (Load.getSetting (some [97])).Missing id noRows := by
    intro query hquery
    obtain rfl := Option.some.inj hquery
    rfl
  exact ⟨hmissing, (missing_rows_iff id noRows).1 _ hmissing⟩

/-- One pc without attributes. -/
def onePc : Database :=
  ⟨[], [], 1, [⟨1, 1, [97]⟩], 2, []⟩

/-- `pb_load_pc` crashes without a pc, and with a pc that has no attributes. -/
theorem loadPc_crashes :
    (Load.loadPc 1 1).Missing id noRows ∧ (Load.loadPc 1 1).run id noRows = none ∧
      pcRows (resultOf id onePc (.loadPc 1 1)) = [⟨1, 1, [97]⟩] ∧ onePc.pcattribs = [] ∧
      (Load.loadPc 1 1).run id onePc = none := by
  refine ⟨?_, rfl, rfl, rfl, rfl⟩
  intro query hquery
  obtain rfl := Option.some.inj hquery
  rfl

end HavokMud.Protobuf
