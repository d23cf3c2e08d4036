import HavokMud.Mysql.Literals
import HavokMud.Mysql.Upserts

/-!
# The strings that upserts write

A save writes its strings into all tables exactly if each of them is the spelling that is linked and
keeps its backslashes.  Into empty tables it inserts one row, and a string that does not reach that
row is not read as itself from its literal.
-/

namespace HavokMud.Mysql.Upserts

open BTree Sql
open Json (CString)
open Attributes.Locks (Strings)

variable {strings : Strings} {collate : Text → Text} {request : Upsert} {item next : QueryItem}
  {db db' : Database} {n : ℕ}

/-- The strings of a save. -/
def Upsert.texts : Upsert → List CString
  | setSetting name value => [name, value]
  | saveAccount _ email passwd _ _ confcode => [email, passwd, confcodeText confcode]
  | savePc _ _ name => [name]
  | savePcAttribs _ source json => [source, json]

/-- The save writes its rows, whatever is in the tables. -/
def Upsert.AlwaysWrites (strings : Strings) (collate : Text → Text) (request : Upsert) : Prop :=
  ∀ db, Counted db → request.Accepted collate db →
    ∃ db', request.process strings collate db = some db' ∧ request.Writes collate db db'

/-- Tables without rows. -/
def noRows : Database :=
  ⟨[], [], 1, [], 1, []⟩

theorem counted_noRows : Counted noRows :=
  ⟨nofun, nofun⟩

theorem accepted_noRows : request.Accepted collate noRows := by
  cases request with
  | savePcAttribs pcId source json =>
      rintro ⟨row, hrow, -⟩
      cases hrow
  | _ => exact trivial

/-! ## Statements into empty tables -/

theorem other_not_mem (hqueued : request.queued strings = some item) : .other ∉ item.queryData := by
  cases request with
  | savePcAttribs pcId source json =>
      obtain ⟨-, hitem⟩ := Option.ite_none_left_eq_some.mp hqueued
      cases hitem
      simp [bindString]
  | _ =>
      cases hqueued
      simp [bindString, bindBool]

theorem process_eq_read {pattern : Text} (hpattern : queryTable[item.queryId]? = some pattern)
    (hcount : pattern.count 63 ≤ item.args.length) (htypes : .other ∉ item.args)
    (hfits : item.Fits strings) :
    item.process strings collate db =
      (readStatement (substituted pattern (renderings (quoteAnswers strings) item.args))).bind
        (perform collate db) := by
  have hlength : (substituted pattern (renderings (quoteAnswers strings) item.args)).length <
      maxStringLength := by
    apply hfits
    rw [QueryItem.text, hpattern]
    rfl
  have hsend : dbQuery (quoteAnswers strings).text maxStringLength pattern (some item.args) =
      .send (substituted pattern (renderings (quoteAnswers strings) item.args)) :=
    dbQuery_substitutes (quoteAnswers strings) (by decide) hcount htypes hlength
  have houtcome : item.outcome strings =
      some (.send (substituted pattern (renderings (quoteAnswers strings) item.args))) := by
    rw [QueryItem.outcome, hpattern]
    exact congrArg some hsend
  rw [QueryItem.process, houtcome]

theorem substituted_append {piece query : Text} (hpiece : 63 ∉ piece) {texts : List Text}
    (hcount : query.count 63 ≤ texts.length) :
    substituted (piece ++ query) texts = piece ++ substituted query texts := by
  induction piece with
  | nil => rfl
  | cons c piece ih =>
      rw [List.mem_cons, not_or] at hpiece
      have hleft : (piece ++ query).count 63 ≤ texts.length := by
        rwa [List.count_append, List.count_eq_zero.mpr hpiece.2, Nat.zero_add]
      rw [List.cons_append, substituted_char (Ne.symm hpiece.1) hleft, ih hpiece.2]
      rfl

theorem queryId_queued (hqueued : request.queued strings = some item) :
    item.queryId ∈ [1, 5, 10, 14] := by
  cases request with
  | savePcAttribs pcId source json =>
      obtain ⟨-, hitem⟩ := Option.ite_none_left_eq_some.mp hqueued
      cases hitem
      simp
  | _ =>
      cases hqueued
      simp

/-- The `SELECT` of a save finds nothing in empty tables. -/
theorem process_queued_noRows (hqueued : request.queued strings = some item)
    (hfits : item.Fits strings) (h : item.process strings collate noRows = some (db', n)) :
    db' = noRows ∧ n = 0 := by
  obtain ⟨pattern, -, hpattern, hcount, -, -⟩ := @stands_queued strings collate _ _ hqueued
  have hall : ∀ id ∈ [1, 5, 10, 14], ∀ pattern ∈ queryTable[id]?,
      pattern = bytes "SELECT " ++ pattern.drop 7 := by decide +kernel
  have hselect := hall item.queryId (queryId_queued hqueued) pattern hpattern
  have htypes : .other ∉ item.args :=
    fun hmem ↦ other_not_mem hqueued (List.mem_of_mem_take hmem)
  have hplaces : (pattern.drop 7).count 63 ≤
      (renderings (quoteAnswers strings) item.args).length := by
    rw [length_renderings]
    exact ((List.drop_sublist 7 pattern).count_le 63).trans hcount
  rw [process_eq_read hpattern hcount htypes hfits] at h
  obtain ⟨statement, hread, hperform⟩ := Option.bind_eq_some_iff.mp h
  rw [hselect, substituted_append (by decide) hplaces] at hread
  obtain ⟨columns, table, conditions, order, limit, rfl⟩ := readStatement_select hread
  exact perform_select_empty ⟨rfl, rfl, rfl, rfl⟩ hperform

/-- The strings of a save are linked when they are bound. -/
theorem quote_queued (hqueued : request.queued strings = some item) {string : List UInt8}
    (hstring : .string (some string) ∈ item.queryData) :
    quote strings string = escaped string := by
  have hlinked : ∃ value, string = (strings.memstrlink value).val := by
    cases request with
    | setSetting name value =>
        cases hqueued
        simp only [bindString, List.mem_cons, Bind.string.injEq, Option.some.injEq,
          List.not_mem_nil, or_false] at hstring
        rcases hstring with rfl | rfl <;> exact ⟨_, rfl⟩
    | saveAccount id email passwd ansi confirmed confcode =>
        cases hqueued
        simp only [bindString, bindBool, List.mem_cons, Bind.string.injEq, Option.some.injEq,
          List.not_mem_nil, or_false, reduceCtorEq, false_or] at hstring
        rcases hstring with rfl | rfl | rfl <;> exact ⟨_, rfl⟩
    | savePc id accountId name =>
        cases hqueued
        simp only [bindString, List.mem_cons, Bind.string.injEq, Option.some.injEq,
          List.not_mem_nil, or_false, reduceCtorEq, false_or] at hstring
        exact ⟨_, hstring⟩
    | savePcAttribs pcId source json =>
        obtain ⟨-, hitem⟩ := Option.ite_none_left_eq_some.mp hqueued
        cases hitem
        simp only [bindString, List.mem_cons, Bind.string.injEq, Option.some.injEq,
          List.not_mem_nil, or_false, reduceCtorEq, false_or] at hstring
        rcases hstring with rfl | rfl <;> exact ⟨_, rfl⟩
  obtain ⟨value, rfl⟩ := hlinked
  exact quote_linked value

/-- The values of an `INSERT` that are the strings of its arguments up to case are those strings. -/
theorem kept_of_insert {piece : Text} {table : Table} {columns : List Column}
    (hinserts : Inserts piece table columns) (hqueued : request.queued strings = some item)
    (hnext : item.chain 0 = some next)
    (hpattern : queryTable[next.queryId]? = some (piece ++ places next.args.length))
    (hfits : next.Fits strings) (h : next.process strings collate db = some (db', n)) :
    ∃ values, perform collate db (.insert table columns values) = some (db', n) ∧
      (List.Forall₂ Spelled next.args values → List.Forall₂ Kept next.args values) := by
  have hmem {arg : Bind} (harg : arg ∈ next.args) : arg ∈ item.queryData :=
    chain_subset hnext (List.mem_of_mem_take harg)
  have hcount : (piece ++ places next.args.length).count 63 ≤ next.args.length := by
    rw [List.count_append, List.count_eq_zero.mpr hinserts.1, count_places, Nat.zero_add]
  have htypes : .other ∉ next.args := fun harg ↦ other_not_mem hqueued (hmem harg)
  have hsubst := substituted_places hinserts.1 (renderings (quoteAnswers strings) next.args)
  rw [length_renderings] at hsubst
  rw [process_eq_read hpattern hcount htypes hfits, hsubst] at h
  obtain ⟨statement, hread, hperform⟩ := Option.bind_eq_some_iff.mp h
  obtain ⟨toks, values, hscan, hvalues, rfl⟩ := hinserts.readStatement hread
  refine ⟨values, hperform, kept_of_listed (fun _ string hstring ↦ ?_) htypes hscan hvalues⟩
  exact quote_queued hqueued (hmem hstring)

/-- What is written of a string is the string. -/
theorem writtenAs_of_kept {value : CString}
    (h : Kept (bindString strings value) (.text value.val)) : WrittenAs strings value := by
  obtain ⟨htext, hkeeps⟩ := h
  have heq : strings.memstrlink value = value := Subtype.ext (SqlValue.text.inj htext).symm
  exact ⟨heq, heq ▸ hkeeps⟩

theorem spelled_bindString (value : CString) :
    Spelled (bindString strings value) (.text value.val) :=
  ⟨value.val, rfl, (strings.rank_memstrlink value).symm⟩

/-! ## Each save -/

/-- Into empty tables the save inserts a row. -/
theorem Upsert.AlwaysWrites.insert (h : request.AlwaysWrites strings collate)
    (hqueued : request.queued strings = some item)
    (hfits : ∀ db, request.Fits strings collate db) :
    ∃ next db' n, item.chain 0 = some next ∧ next.Fits strings ∧
      next.process strings collate noRows = some (db', n) ∧ request.Writes collate noRows db' := by
  obtain ⟨db', hprocess, hwrites⟩ := h noRows counted_noRows accepted_noRows
  rw [Upsert.process, hqueued] at hprocess
  simp only [Option.bind_eq_bind, Option.bind_some, Option.bind_eq_some_iff] at hprocess
  obtain ⟨⟨db₁, count⟩, hselect, next, hnext, ⟨db₂, n⟩, hinsert, heq⟩ := hprocess
  obtain rfl := Option.some.inj heq
  obtain ⟨hfirst, hsecond⟩ := hfits noRows item hqueued
  obtain ⟨rfl, rfl⟩ := process_queued_noRows hqueued hfirst hselect
  have hfound : request.found collate noRows = 0 := by cases request <;> rfl
  exact ⟨next, _, n, hnext, hsecond next (hfound ▸ hnext), hinsert, hwrites⟩

theorem inserts_settings : Inserts (bytes "INSERT INTO `settings` (`name`, `value`) VALUES (")
    .settings [.name, .value] :=
  ⟨by decide +kernel, [.word .insert, .word .into, .name (bytes "settings"), .mark 40,
    .name (bytes "name"), .mark 44, .name (bytes "value"), .mark 41, .word .values, .mark 40],
    by decide +kernel, fun _ ↦ rfl⟩

theorem inserts_accounts : Inserts
    (bytes "INSERT INTO `accounts` (`email`, `passwd`, `ansi`, `confirmed`, `confcode`) VALUES (")
    .accounts [.email, .passwd, .ansi, .confirmed, .confcode] :=
  ⟨by decide +kernel, [.word .insert, .word .into, .name (bytes "accounts"), .mark 40,
    .name (bytes "email"), .mark 44, .name (bytes "passwd"), .mark 44, .name (bytes "ansi"),
    .mark 44, .name (bytes "confirmed"), .mark 44, .name (bytes "confcode"), .mark 41,
    .word .values, .mark 40], by decide +kernel, fun _ ↦ rfl⟩

theorem inserts_pcs : Inserts (bytes "INSERT INTO `pcs` (`account_id`, `name`) VALUES (") .pcs
    [.accountId, .name] :=
  ⟨by decide +kernel, [.word .insert, .word .into, .name (bytes "pcs"), .mark 40,
    .name (bytes "account_id"), .mark 44, .name (bytes "name"), .mark 41, .word .values, .mark 40],
    by decide +kernel, fun _ ↦ rfl⟩

theorem inserts_pcattribs : Inserts
    (bytes "INSERT INTO `pcattribs` (`pc_id`, `attribsrc`, `attribjson`) VALUES (") .pcattribs
    [.pcId, .attribsrc, .attribjson] :=
  ⟨by decide +kernel, [.word .insert, .word .into, .name (bytes "pcattribs"), .mark 40,
    .name (bytes "pc_id"), .mark 44, .name (bytes "attribsrc"), .mark 44,
    .name (bytes "attribjson"), .mark 41, .word .values, .mark 40],
    by decide +kernel, fun _ ↦ rfl⟩

theorem values_settings {values : List SqlValue} {name value : Text}
    (h : perform collate noRows (.insert .settings [.name, .value] values) = some (db', n))
    (hrows : db'.settings = [(name, value)]) : values = [.text name, .text value] := by
  rw [perform_settings rfl] at h
  obtain ⟨hlength, row, hassign, hadd⟩ := perform_insert_cases h
  match values, hlength with
  | [v₁, v₂], _ =>
      cases v₁ <;> cases v₂ <;> cases hassign
      simp only [settings] at hadd
      split_ifs at hadd
      cases hadd
      cases hrows
      rfl

theorem values_pcs {values : List SqlValue} {accountId id : ℤ} {name : Text}
    (h : perform collate noRows (.insert .pcs [.accountId, .name] values) = some (db', n))
    (hrows : db'.pcs = [⟨id, accountId, name⟩]) :
    values = [.number accountId, .text name] := by
  rw [perform_pcs rfl] at h
  obtain ⟨hlength, row, hassign, hadd⟩ := perform_insert_cases h
  match values, hlength with
  | [v₁, v₂], _ =>
      cases v₁ <;> cases v₂ <;> cases hassign
      cases hadd
      cases hrows
      rfl

theorem values_pcattribs {values : List SqlValue} {pcId : ℤ} {source json : Text}
    (h : perform collate noRows (.insert .pcattribs [.pcId, .attribsrc, .attribjson] values) =
      some (db', n)) (hrows : db'.pcattribs = [⟨pcId, source, json⟩]) :
    values = [.number pcId, .text source, .text json] := by
  rw [perform_pcattribs rfl] at h
  obtain ⟨hlength, row, hassign, hadd⟩ := perform_insert_cases h
  match values, hlength with
  | [v₁, v₂, v₃], _ =>
      cases v₁ <;> cases v₂ <;> cases v₃ <;> cases hassign
      simp only [pcattribs] at hadd
      split_ifs at hadd
      cases hadd
      cases hrows
      rfl

theorem values_accounts {values : List SqlValue} {account : Account}
    (h : perform collate noRows
      (.insert .accounts [.email, .passwd, .ansi, .confirmed, .confcode] values) = some (db', n))
    (hrows : db'.accounts = [account]) : ∃ ansi confirmed, values =
      [.text account.email, .text account.passwd, ansi, confirmed, .text account.confcode] := by
  rw [perform_accounts rfl] at h
  obtain ⟨hlength, row, hassign, hadd⟩ := perform_insert_cases h
  match values, hlength with
  | [v₁, v₂, v₃, v₄, v₅], _ =>
      -- one column after the other: only a text is written to a column of texts
      simp only [Access.assign, List.zip_cons_cons, List.zip_nil_left, List.foldlM_cons,
        List.foldlM_nil, Option.bind_eq_bind, Option.bind_eq_some_iff] at hassign
      obtain ⟨_, hemail, _, hpasswd, _, hansi, _, hconfirmed, _, hconfcode, hrow⟩ := hassign
      obtain ⟨ansi, -, rfl⟩ := Option.map_eq_some_iff.mp hansi
      obtain ⟨confirmed, -, rfl⟩ := Option.map_eq_some_iff.mp hconfirmed
      cases v₁ <;> cases hemail
      cases v₂ <;> cases hpasswd
      cases v₅ <;> cases hconfcode
      cases hrow
      cases hadd
      cases hrows
      exact ⟨v₃, v₄, rfl⟩

theorem writtenAs_setting {name value : CString}
    (h : (Upsert.setSetting name value).AlwaysWrites strings collate)
    (hfits : ∀ db, (Upsert.setSetting name value).Fits strings collate db) :
    WrittenAs strings name ∧ WrittenAs strings value := by
  obtain ⟨next, db', n, hnext, hfit, hprocess, hwrites⟩ := h.insert rfl hfits
  cases hnext
  obtain ⟨values, hperform, hkept⟩ := kept_of_insert inserts_settings
    (rfl : (Upsert.setSetting name value).queued strings = some _) rfl rfl hfit hprocess
  have hrows : db'.settings = [(name.val, value.val)] := by
    rw [hwrites]
    simp [upsertRows, noRows]
  obtain rfl := values_settings hperform hrows
  have hall : List.Forall₂ Kept [bindString strings name, bindString strings value] _ :=
    hkept (.cons (spelled_bindString name) (.cons (spelled_bindString value) .nil))
  simp only [List.forall₂_cons] at hall
  obtain ⟨hname, hvalue, -⟩ := hall
  exact ⟨writtenAs_of_kept hname, writtenAs_of_kept hvalue⟩

theorem writtenAs_account {id : Int32} {email passwd : CString} {ansi confirmed : Bool}
    {confcode : Option CString}
    (h : (Upsert.saveAccount id email passwd ansi confirmed confcode).AlwaysWrites strings collate)
    (hfits : ∀ db,
      (Upsert.saveAccount id email passwd ansi confirmed confcode).Fits strings collate db) :
    WrittenAs strings email ∧ WrittenAs strings passwd ∧
      WrittenAs strings (confcodeText confcode) := by
  obtain ⟨next, db', n, hnext, hfit, hprocess, fresh, nextAccount, -, hwrites⟩ := h.insert rfl hfits
  cases hnext
  obtain ⟨values, hperform, hkept⟩ := kept_of_insert inserts_accounts
    (rfl : (Upsert.saveAccount id email passwd ansi confirmed confcode).queued strings = some _)
    rfl rfl hfit hprocess
  have hrows : db'.accounts =
      [⟨fresh, email.val, passwd.val, ansi, confirmed, (confcodeText confcode).val⟩] := by
    rw [hwrites]
    simp [upsertRows, noRows]
  obtain ⟨value₃, value₄, rfl⟩ := values_accounts hperform hrows
  have hall : List.Forall₂ Kept [bindString strings email, bindString strings passwd, bindBool ansi,
      bindBool confirmed, bindString strings (confcodeText confcode)] _ :=
    hkept (.cons (spelled_bindString email) (.cons (spelled_bindString passwd) (.cons trivial
      (.cons trivial (.cons (spelled_bindString (confcodeText confcode)) .nil)))))
  simp only [List.forall₂_cons] at hall
  obtain ⟨hemail, hpasswd, -, -, hconfcode, -⟩ := hall
  exact ⟨writtenAs_of_kept hemail, writtenAs_of_kept hpasswd, writtenAs_of_kept hconfcode⟩

theorem writtenAs_pc {id accountId : Int32} {name : CString}
    (h : (Upsert.savePc id accountId name).AlwaysWrites strings collate)
    (hfits : ∀ db, (Upsert.savePc id accountId name).Fits strings collate db) :
    WrittenAs strings name := by
  obtain ⟨next, db', n, hnext, hfit, hprocess, fresh, nextPc, -, hwrites⟩ := h.insert rfl hfits
  cases hnext
  obtain ⟨values, hperform, hkept⟩ := kept_of_insert inserts_pcs
    (rfl : (Upsert.savePc id accountId name).queued strings = some _) rfl rfl hfit hprocess
  have hrows : db'.pcs = [⟨fresh, accountId.toInt, name.val⟩] := by
    rw [hwrites]
    simp [upsertRows, noRows]
  obtain rfl := values_pcs hperform hrows
  have hall : List.Forall₂ Kept [.long accountId, bindString strings name] _ :=
    hkept (.cons trivial (.cons (spelled_bindString name) .nil))
  simp only [List.forall₂_cons] at hall
  exact writtenAs_of_kept hall.2.1

theorem writtenAs_pcAttribs {pcId : Int32} {source json : CString} (hpc : pcId ≠ 0)
    (h : (Upsert.savePcAttribs pcId source json).AlwaysWrites strings collate)
    (hfits : ∀ db, (Upsert.savePcAttribs pcId source json).Fits strings collate db) :
    WrittenAs strings source ∧ WrittenAs strings json := by
  have hqueued : (Upsert.savePcAttribs pcId source json).queued strings = some _ := if_neg hpc
  obtain ⟨next, db', n, hnext, hfit, hprocess, hwrites⟩ := h.insert hqueued hfits
  cases hnext
  obtain ⟨values, hperform, hkept⟩ := kept_of_insert inserts_pcattribs hqueued rfl rfl hfit hprocess
  have hrows : db'.pcattribs = [⟨pcId.toInt, source.val, json.val⟩] := by
    rw [hwrites]
    simp [upsertRows, noRows]
  obtain rfl := values_pcattribs hperform hrows
  have hall : List.Forall₂ Kept
      [.long pcId, bindString strings source, bindString strings json] _ :=
    hkept (.cons trivial (.cons (spelled_bindString source) (.cons (spelled_bindString json) .nil)))
  simp only [List.forall₂_cons] at hall
  obtain ⟨-, hsource, hjson, -⟩ := hall
  exact ⟨writtenAs_of_kept hsource, writtenAs_of_kept hjson⟩

/-- A string that is written is also found. -/
theorem WrittenAs.foundAs {value : CString} (h : WrittenAs strings value) (found : ℕ) :
    FoundAs strings collate value found := by
  refine ⟨?_, by rw [h.1], fun _ ↦ h.1⟩
  rw [h.1]
  exact h.2

/-- A save whose statements are shorter than the buffer writes its rows into all tables exactly if
each of its strings is the spelling that is linked, with every backslash before `%`, `_` or `"`. -/
theorem upsert_writes_iff (hqueued : request.queued strings = some item)
    (hfits : ∀ db, request.Fits strings collate db) :
    request.AlwaysWrites strings collate ↔ ∀ text ∈ request.texts, WrittenAs strings text := by
  constructor
  · intro h
    cases request with
    | setSetting name value =>
        obtain ⟨hname, hvalue⟩ := writtenAs_setting h hfits
        simp [Upsert.texts, hname, hvalue]
    | saveAccount id email passwd ansi confirmed confcode =>
        obtain ⟨hemail, hpasswd, hconfcode⟩ := writtenAs_account h hfits
        simp [Upsert.texts, hemail, hpasswd, hconfcode]
    | savePc id accountId name => simp [Upsert.texts, writtenAs_pc h hfits]
    | savePcAttribs pcId source json =>
        have hpc : pcId ≠ 0 := (Option.ite_none_left_eq_some.mp hqueued).1
        obtain ⟨hsource, hjson⟩ := writtenAs_pcAttribs hpc h hfits
        simp [Upsert.texts, hsource, hjson]
  · intro h db hcounted haccepted
    apply upsert_writes hcounted hqueued haccepted _ (hfits db)
    cases request with
    | setSetting name value => exact ⟨(h name (by simp [Upsert.texts])).foundAs _,
        h value (by simp [Upsert.texts])⟩
    | saveAccount id email passwd ansi confirmed confcode =>
        exact ⟨h email (by simp [Upsert.texts]), h passwd (by simp [Upsert.texts]),
          h _ (by simp [Upsert.texts])⟩
    | savePc id accountId name => exact h name (by simp [Upsert.texts])
    | savePcAttribs pcId source json => exact ⟨(h source (by simp [Upsert.texts])).foundAs _,
        h json (by simp [Upsert.texts])⟩

/-- A chain function has two statements. -/
theorem fits_of_chains (hqueued : request.queued strings = some item) (hitem : item.Fits strings)
    (hchains : ∀ count ∈ [0, 1], ∀ next ∈ item.chain count, next.Fits strings) :
    ∀ db, request.Fits strings collate db := by
  intro db item' hitem'
  obtain rfl := Option.some.inj (hqueued.symm.trans hitem')
  refine ⟨hitem, fun next hnext ↦ ?_⟩
  by_cases hfound : request.found collate db = 0
  · rw [hfound] at hnext
    exact hchains 0 (by simp) next hnext
  · have hcount : request.found collate db ≠ 0 ↔ 1 ≠ 0 := by simp [hfound]
    exact hchains 1 (by simp) next (chain_congr hcount ▸ hnext)

/-- The account 3 gets a password with a quote. -/
theorem upsert_writes_quote : (Upsert.saveAccount 3 ⟨[97], by decide⟩ ⟨[105, 39, 109], by decide⟩
    true false none).AlwaysWrites Attributes.Locks.lowerStrings fun text ↦ text :=
  (upsert_writes_iff rfl (fits_of_chains rfl (by decide +kernel) (by decide +kernel))).mpr (by
    intro text htext
    simp only [Upsert.texts, List.mem_cons, List.not_mem_nil, or_false] at htext
    rcases htext with rfl | rfl | rfl
    all_goals exact ⟨by decide +kernel, by simp [KeepsBackslashes, confcodeText]⟩)

/-- The value `a\b` is written as an `a` and a backspace. -/
theorem backslash_is_not_written :
    Counted noRows ∧
    (Upsert.setSetting ⟨[110], by decide⟩ ⟨[97, 92, 98], by decide⟩).process
        Attributes.Locks.lowerStrings (fun text ↦ text) noRows =
      some ⟨[([110], [97, 8])], [], 1, [], 1, []⟩ ∧
    ¬ (Upsert.setSetting ⟨[110], by decide⟩ ⟨[97, 92, 98], by decide⟩).Writes (fun text ↦ text)
      noRows ⟨[([110], [97, 8])], [], 1, [], 1, []⟩ := by
  refine ⟨counted_noRows, by decide +kernel, fun hwrites ↦ ?_⟩
  have hsettings := congrArg Database.settings hwrites
  exact absurd hsettings (by decide)

end HavokMud.Mysql.Upserts
