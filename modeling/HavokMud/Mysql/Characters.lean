import HavokMud.Attributes.Aggregate
import HavokMud.Mysql.Queries

/-!
# Characters through the database

`db_mysql_save_pc` writes every source of a pc into `pcattribs`, whose primary key is the pc alone,
so at most one source of a pc has a row.  `db_mysql_load_pc` combines the rows again.
-/

namespace HavokMud.Mysql.Characters

open BinaryTree BTree SearchTree Json Attributes

section Server

variable (collate : Text → Text) (column : Text → Option Text)

/-- The statement with the source as the column `attribsrc` keeps it, unless the server refuses a
text that is too long. -/
def fitted : Query → Option Query
  | .insertPcAttribs attribs => (column attribs.attribsrc).map fun attribsrc ↦
      .insertPcAttribs { attribs with attribsrc := attribsrc }
  | query => some query

/-- The tables after a statement, which change nothing when it fails. -/
def statement (db : Database) (query : Query) : Database :=
  (((fitted column query).bind (execute collate db)).map Prod.fst).getD db

/-- One turn of the loop in `db_mysql_save_pc_attribs`, with the query that `chain_save_pc_attribs`
queues.  There is no result for a NULL text, which the column does not allow. -/
def saveSource (pcId : ℤ) (db : Database) (part : JSONSource) : Option Database :=
  part.json.bind fun json ↦
    let attribs : PcAttribs := ⟨pcId, part.source.val, json⟩
    (execute collate db (.checkPcAttribs attribs)).bind fun found ↦
      ((Query.checkPcAttribs attribs).chain found.2.count).map (statement collate column found.1)

/-- `db_mysql_save_pc_attribs`. -/
def savePcAttribs (db : Database) (pcId : ℤ) (json : Option Text) : Option Database :=
  if pcId = 0 ∨ json = none then some db
  else (splitJSON json).bind fun js ↦ js.foldlM (saveSource collate column pcId) db

/-- `db_mysql_save_pc` with the query that `chain_save_pc` queues, and the id of its response. -/
def savePc (db : Database) (pc : Pc) (attribs : Option Text) : Option (Database × ℤ) :=
  (execute collate db (.checkPc pc)).bind fun found ↦
    ((Query.checkPc pc).chain found.2.count).bind fun query ↦
      (execute collate found.1 query).bind fun saved ↦
        let id := if found.2.count ≠ 0 then pc.id else saved.2.insertid
        (savePcAttribs collate column saved.1 id attribs).map fun db ↦ (db, id)

/-- `db_mysql_load_pc_attribs` with `result_load_pc_attribs`. -/
def loadPcAttribs (db : Database) (pcId : ℤ) : Option Text :=
  if pcId = 0 then none
  else match execute collate db (.loadPcAttribs pcId) with
    | some (_, .attribs (row :: rows)) => combineJSON ((row :: rows).map fun row ↦
        ⟨.ofBytes row.attribsrc, some row.attribjson⟩)
    | _ => none

/-- `db_mysql_load_pc` with `result_load_pc`.  There is no result when no row is found, as the
response that stays NULL is followed. -/
def loadPc (db : Database) (accountId id : ℤ) : Option (Pc × Option Text) :=
  if accountId = 0 ∨ id = 0 then none
  else match execute collate db (.loadPc accountId id) with
    | some (_, .pcs (row :: _)) => some (row, loadPcAttribs collate db id)
    | _ => none

/-- What `pb_load_pc` makes of the text it is sent. -/
def decode (json : Option Text) : Option PlayerPC :=
  (splitJSON json).bind fun js ↦ addParts js .fresh

/-- The pc is saved and loaded again, and every source holds what it held. -/
def Survives (db : Database) (pc : Pc) (player : PlayerPC) : Prop :=
  ∃ js db' id row json loaded, extractJSONFromTree player = some js ∧
    savePc collate column db pc (combineJSON js) = some (db', id) ∧
    loadPc collate db' pc.accountId id = some (row, json) ∧ decode json = some loaded ∧
    ∀ source attrib, held loaded.sources source attrib = held player.sources source attrib

/-! ## Earlier saves -/

/-- The tables that saves of pcs make of tables without attributes. -/
inductive Stored : Database → Prop
  | new {db : Database} : db.pcattribs = [] → 0 < db.nextPc →
      (∀ row ∈ db.pcs, row.id ≠ 0) → Stored db
  | save {db db' : Database} {pc : Pc} {player : PlayerPC} {js : List JSONSource} {id : ℤ} :
      Stored db → Scalars player → extractJSONFromTree player = some js →
      savePc collate column db pc (combineJSON js) = some (db', id) → Stored db'

end Server

/-- The id under which a pc is saved. -/
def savedId (db : Database) (pc : Pc) : ℤ :=
  if ∃ row ∈ db.pcs, row.id = pc.id then pc.id else db.nextPc

/-! ## The rows of a pc -/

/-- A row of `pcattribs` that a save leaves: a source under a name that is printed without loss. -/
structure Holds (row : PcAttribs) (e : Source) : Prop where
  filled : Filled e
  name : PrintableText e.1
  attribsrc : row.attribsrc = e.1.val
  attribjson : print (.object e.2) = some row.attribjson

/-- What is loaded of one row. -/
theorem Holds.decode {row : PcAttribs} {e : Source} (h : Holds row e) :
    ∃ loaded, decode (combineJSON [⟨.ofBytes row.attribsrc, some row.attribjson⟩]) = some loaded ∧
      ∀ source attrib, held loaded.sources source attrib =
        if rank e.1 = source then (latest (e.2.map keptMember) attrib none).map shown
        else none := by
  have hpart : (⟨.ofBytes row.attribsrc, some row.attribjson⟩ : JSONSource) = textOf e := by
    rw [h.attribsrc, CString.ofBytes_val, ← h.attribjson]
    rfl
  have hfilled : ∀ e' ∈ [e], Filled e' := by
    intro e' he'
    rw [List.mem_singleton.mp he']
    exact h.filled
  obtain ⟨text, hcombine, hsplit⟩ := split_combine hfilled (List.cons_ne_nil e [])
  obtain ⟨loaded, hadd, -, hentries⟩ := addParts_spec hfilled wellFormed_fresh
  refine ⟨loaded, ?_, ?_⟩
  · rw [Characters.decode, hpart]
    rw [List.map_singleton] at hcombine
    rw [hcombine, hsplit, Option.bind_some, List.map_singleton, keptString_eq_self h.name]
    exact hadd
  · intro source attrib
    have hvalue : held loaded.sources source attrib =
        (entry loaded.sourceTrees source attrib).map shown := Attributes.held_eq _ _ _
    rw [hvalue, hentries]
    change Option.map shown
      (if rank e.1 = source then latest (e.2.map keptMember) attrib none else none) = _
    split_ifs <;> rfl

/-- What the saves keep of the tables. -/
structure Sound (db : Database) : Prop where
  keys : db.pcattribs.Pairwise fun row row' ↦ row.pcId ≠ row'.pcId
  rows : ∀ row ∈ db.pcattribs, ∃ e, Holds row e
  nextPc : 0 < db.nextPc
  pcs : ∀ row ∈ db.pcs, row.id ≠ 0

/-- The row of a pc. -/
def rowOf (rows : List PcAttribs) (id : ℤ) : Option PcAttribs :=
  rows.find? fun row ↦ row.pcId = id

theorem rowOf_eq_some {rows : List PcAttribs}
    (hkeys : rows.Pairwise fun row row' ↦ row.pcId ≠ row'.pcId) {id : ℤ} {row : PcAttribs} :
    rowOf rows id = some row ↔ row ∈ rows ∧ row.pcId = id := by
  constructor
  · intro hrow
    exact ⟨List.mem_of_find?_eq_some hrow, by simpa using List.find?_some hrow⟩
  · rintro ⟨hmem, rfl⟩
    exact find?_of_key hkeys hmem

theorem rowOf_eq_none {rows : List PcAttribs} {id : ℤ} :
    rowOf rows id = none ↔ ∀ row ∈ rows, row.pcId ≠ id := by
  simp [rowOf]

/-- The rows that `SELECT` finds. -/
theorem filter_eq_toList {rows : List PcAttribs}
    (hkeys : rows.Pairwise fun row row' ↦ row.pcId ≠ row'.pcId) (id : ℤ) :
    (rows.filter fun row ↦ row.pcId = id) = (rowOf rows id).toList := by
  induction rows with
  | nil => rfl
  | cons row rows ih =>
      obtain ⟨hrow, hrows⟩ := List.pairwise_cons.mp hkeys
      by_cases heq : row.pcId = id
      · have hnone : rows.filter (fun row ↦ row.pcId = id) = [] := by
          apply List.filter_eq_nil_iff.mpr
          intro row' hrow'
          simpa using fun hid ↦ hrow row' hrow' (heq.trans hid.symm)
        rw [List.filter_cons_of_pos (by simpa using heq), hnone, rowOf,
          List.find?_cons_of_pos (by simpa using heq)]
        rfl
      · rw [List.filter_cons_of_neg (by simpa using heq), ih hrows, rowOf, rowOf,
          List.find?_cons_of_neg (by simpa using heq)]

section Rows

variable (collate : Text → Text) (column : Text → Option Text)

/-- A row whose source the server takes for the name gets the text. -/
def updated (id : ℤ) (name json : Text) (row : PcAttribs) : PcAttribs :=
  if row.pcId = id ∧ collate row.attribsrc = collate name then { row with attribjson := json }
  else row

/-- The rows after one source was saved. -/
def nextRows (id : ℤ) (name json : Text) (rows : List PcAttribs) : List PcAttribs :=
  if ∃ row ∈ rows, row.pcId = id ∧ collate row.attribsrc = collate name then
    rows.map (updated collate id name json)
  else if ∃ row ∈ rows, row.pcId = id then rows
  else (column name).elim rows fun attribsrc ↦ rows ++ [⟨id, attribsrc, json⟩]

theorem saveSource_eq (id : ℤ) (db : Database) (name : CString) (json : Text) :
    saveSource collate column id db ⟨name, some json⟩ =
      some { db with pcattribs := nextRows collate column id name.val json db.pcattribs } := by
  have hcount : (db.pcattribs.filter fun row ↦
      row.pcId = id ∧ collate row.attribsrc = collate name.val).length ≠ 0 ↔
        ∃ row ∈ db.pcattribs, row.pcId = id ∧ collate row.attribsrc = collate name.val := by
    rw [← Nat.pos_iff_ne_zero, List.length_pos_iff_exists_mem]
    simp only [List.mem_filter, decide_eq_true_eq]
  unfold saveSource nextRows
  simp only [Option.bind_some, execute, Query.chain, Option.map_some, Result.count, hcount]
  split_ifs with hsame hrow
  · rfl
  · cases hcolumn : column name.val <;> simp [statement, fitted, hcolumn, execute, hrow]
  · cases hcolumn : column name.val <;> simp [statement, fitted, hcolumn, execute, hrow]

theorem updated_pcId (id : ℤ) (name json : Text) (row : PcAttribs) :
    (updated collate id name json row).pcId = row.pcId := by
  unfold updated
  split_ifs <;> rfl

theorem rowOf_map_updated (id : ℤ) (name json : Text) (rows : List PcAttribs) (id' : ℤ) :
    rowOf (rows.map (updated collate id name json)) id' =
      (rowOf rows id').map (updated collate id name json) := by
  unfold rowOf
  rw [List.find?_map]
  congr 2
  funext row
  rw [Function.comp_apply, updated_pcId]

variable {collate column}

/-- The row of the pc after one source was saved: the column does not take a second one. -/
theorem rowOf_nextRows {rows : List PcAttribs}
    (hkeys : rows.Pairwise fun row row' ↦ row.pcId ≠ row'.pcId) (id : ℤ) (name json : Text) :
    rowOf (nextRows collate column id name json rows) id = match rowOf rows id with
      | some row => some (updated collate id name json row)
      | none => (column name).map fun attribsrc ↦ ⟨id, attribsrc, json⟩ := by
  unfold nextRows
  cases hrow : rowOf rows id with
  | some row =>
      obtain ⟨hmem, hid⟩ := (rowOf_eq_some hkeys).mp hrow
      split_ifs with hsame hany
      · rw [rowOf_map_updated, hrow, Option.map_some]
      · have hother : ¬ (row.pcId = id ∧ collate row.attribsrc = collate name) :=
          fun hrow ↦ hsame ⟨row, hmem, hrow⟩
        rw [hrow]
        exact congrArg some (if_neg hother).symm
      · exact absurd ⟨row, hmem, hid⟩ hany
  | none =>
      have hnone := rowOf_eq_none.mp hrow
      rw [if_neg (fun ⟨row, hmem, hid, _⟩ ↦ hnone row hmem hid),
        if_neg (fun ⟨row, hmem, hid⟩ ↦ hnone row hmem hid)]
      cases column name with
      | none => exact hrow
      | some attribsrc =>
          rw [rowOf] at hrow
          rw [Option.elim_some, rowOf, List.find?_append, hrow, Option.none_or,
            List.find?_cons_of_pos (by simp)]
          rfl

theorem nextRows_keys {rows : List PcAttribs}
    (hkeys : rows.Pairwise fun row row' ↦ row.pcId ≠ row'.pcId) (id : ℤ) (name json : Text) :
    (nextRows collate column id name json rows).Pairwise fun row row' ↦ row.pcId ≠ row'.pcId := by
  unfold nextRows
  split_ifs with hsame hany
  · rw [List.pairwise_map]
    simpa only [updated_pcId] using hkeys
  · exact hkeys
  · cases column name with
    | none => exact hkeys
    | some attribsrc =>
        apply List.pairwise_append.mpr
        refine ⟨hkeys, List.pairwise_singleton _ _, ?_⟩
        intro row hrow row' hrow' heq
        rw [List.mem_singleton.mp hrow'] at heq
        exact hany ⟨row, hrow, heq⟩

/-- What the column keeps of a name that is printed without loss. -/
theorem holds_of_column (hcolumn : ∀ text kept, column text = some kept → kept <+: text)
    {e : Source}
    (hfilled : Filled e) (hname : PrintableText e.1) {json attribsrc : Text}
    (hjson : print (.object e.2) = some json) (hkept : column e.1.val = some attribsrc) (id : ℤ) :
    ∃ e', Holds ⟨id, attribsrc, json⟩ e' := by
  have hsub := (hcolumn _ _ hkept).subset
  exact ⟨(⟨attribsrc, fun hmem ↦ e.1.property (hsub hmem)⟩, e.2), ⟨hfilled.fits, hfilled.filled⟩,
    fun c hc ↦ hname c (hsub hc), rfl, hjson⟩

theorem Holds.updated {row : PcAttribs} {e : Source} (h : Holds row e) {e' : Source}
    (hfilled : Filled e') {json : Text} (hjson : print (.object e'.2) = some json) (id : ℤ)
    (name : Text) : ∃ e, Holds (updated collate id name json row) e := by
  unfold Characters.updated
  split_ifs with hsame
  · exact ⟨(e.1, e'.2), ⟨hfilled.fits, hfilled.filled⟩, h.name, h.attribsrc, hjson⟩
  · exact ⟨e, h⟩

/-- One source is saved. -/
theorem Sound.nextRows (hcolumn : ∀ text kept, column text = some kept → kept <+: text)
    {db : Database} (h : Sound db) {e : Source} (hfilled : Filled e) (hname : PrintableText e.1)
    {json : Text} (hjson : print (.object e.2) = some json) (id : ℤ) :
    Sound { db with pcattribs := nextRows collate column id e.1.val json db.pcattribs } where
  keys := nextRows_keys h.keys id e.1.val json
  rows := by
    intro row hrow
    dsimp only at hrow
    unfold Characters.nextRows at hrow
    split_ifs at hrow with hsame hany
    · obtain ⟨old, hold, rfl⟩ := List.mem_map.mp hrow
      obtain ⟨e', hold⟩ := h.rows old hold
      exact hold.updated hfilled hjson id e.1.val
    · exact h.rows row hrow
    · cases hkept : column e.1.val with
      | none =>
          rw [hkept] at hrow
          exact h.rows row hrow
      | some attribsrc =>
          rw [hkept] at hrow
          rcases List.mem_append.mp hrow with hold | hnew
          · exact h.rows row hold
          · rw [List.mem_singleton.mp hnew]
            exact holds_of_column hcolumn hfilled hname hjson hkept id
  nextPc := h.nextPc
  pcs := h.pcs

end Rows

/-! ## Saving and loading -/

section Saves

variable (collate : Text → Text) (column : Text → Option Text)

/-- The rows after some sources were saved. -/
def savedRows (id : ℤ) (es : List Source) (rows : List PcAttribs) : List PcAttribs :=
  es.foldl (fun rows e ↦
    nextRows collate column id (keptText e.1.val) ((print (.object e.2)).getD []) rows) rows

def withRows (db : Database) (rows : List PcAttribs) : Database :=
  { db with pcattribs := rows }

/-- The tables after `chain_save_pc`. -/
def withPc (db : Database) (pc : Pc) : Database :=
  if ∃ row ∈ db.pcs, row.id = pc.id then
    { db with pcs := db.pcs.map fun row ↦ if row.id = pc.id then pc else row }
  else { db with
    pcs := db.pcs ++ [{ pc with id := db.nextPc }]
    nextPc := db.nextPc + 1 }

variable {collate column}

theorem saveSources_eq {es : List Source} (h : ∀ e ∈ es, Filled e) (id : ℤ) (db : Database) :
    (es.map fun e ↦ textOf (keptString e.1, e.2)).foldlM (saveSource collate column id) db =
      some (withRows db (savedRows collate column id es db.pcattribs)) := by
  induction es generalizing db with
  | nil => rfl
  | cons e es ih =>
      have he := h e List.mem_cons_self
      obtain ⟨text, htext, -⟩ := exists_text he.fits he.filled
      have hfirst : saveSource collate column id db (textOf (keptString e.1, e.2)) =
          some (withRows db (nextRows collate column id (keptText e.1.val)
            ((print (.object e.2)).getD []) db.pcattribs)) := by
        rw [textOf, htext]
        exact saveSource_eq collate column id db (keptString e.1) _
      rw [List.map_cons, List.foldlM_cons, hfirst]
      exact ih (fun e' he' ↦ h e' (List.mem_cons_of_mem e he')) _

theorem savePcAttribs_eq {es : List Source} (h : ∀ e ∈ es, Filled e) {id : ℤ} (hid : id ≠ 0)
    (db : Database) :
    savePcAttribs collate column db id (combineJSON (es.map textOf)) =
      some (withRows db (savedRows collate column id es db.pcattribs)) := by
  by_cases hes : es = []
  · subst hes
    have hnone : combineJSON (([] : List Source).map textOf) = none := rfl
    rw [savePcAttribs, hnone, if_pos (Or.inr rfl)]
    rfl
  · obtain ⟨text, hcombine, hsplit⟩ := split_combine h hes
    rw [savePcAttribs, hcombine, if_neg (by simpa using hid), hsplit]
    exact saveSources_eq h id db

theorem Sound.savedRows (hcolumn : ∀ text kept, column text = some kept → kept <+: text)
    {es : List Source} (hes : ∀ e ∈ es, Filled e) (id : ℤ) {db : Database} (h : Sound db) :
    Sound (withRows db (savedRows collate column id es db.pcattribs)) := by
  induction es generalizing db with
  | nil => exact h
  | cons e es ih =>
      have he := hes e List.mem_cons_self
      obtain ⟨text, htext, -⟩ := exists_text he.fits he.filled
      have hfirst : Sound (withRows db (Characters.nextRows collate column id (keptText e.1.val)
          ((print (.object e.2)).getD []) db.pcattribs)) := by
        have hkept : Filled (keptString e.1, e.2) := ⟨he.fits, he.filled⟩
        apply h.nextRows hcolumn hkept (printableText_keptText e.1.val) _ id
        rw [htext]
        rfl
      exact ih (fun e' he' ↦ hes e' (List.mem_cons_of_mem e he')) hfirst

theorem savePc_eq (db : Database) (pc : Pc) (attribs : Option Text) :
    savePc collate column db pc attribs =
      (savePcAttribs collate column (withPc db pc) (savedId db pc) attribs).map fun db' ↦
        (db', savedId db pc) := by
  have hcount : ((db.pcs.filter fun row ↦ row.id = pc.id).take 1).length ≠ 0 ↔
      ∃ row ∈ db.pcs, row.id = pc.id := by
    rw [List.length_take, ← Nat.pos_iff_ne_zero, lt_min_iff, List.length_pos_iff_exists_mem]
    simp
  unfold savePc withPc savedId
  simp only [Option.bind_some, execute, Query.chain, Result.count, hcount]
  split_ifs with hfound <;> rfl

theorem Sound.withPc {db : Database} (h : Sound db) (pc : Pc) : Sound (withPc db pc) := by
  unfold Characters.withPc
  split_ifs with hfound
  · refine ⟨h.keys, h.rows, h.nextPc, ?_⟩
    intro row hrow
    obtain ⟨old, hold, rfl⟩ := List.mem_map.mp hrow
    have hne := h.pcs old hold
    split_ifs with heq
    · rwa [← heq]
    · exact hne
  · refine ⟨h.keys, h.rows, by linarith [h.nextPc], ?_⟩
    intro row hrow
    rcases List.mem_append.mp hrow with hold | hnew
    · exact h.pcs row hold
    · rw [List.mem_singleton.mp hnew]
      exact h.nextPc.ne'

theorem withPc_pcattribs (db : Database) (pc : Pc) : (withPc db pc).pcattribs = db.pcattribs := by
  unfold withPc
  split_ifs <;> rfl

theorem Sound.savedId_ne {db : Database} (h : Sound db) (pc : Pc) : savedId db pc ≠ 0 := by
  unfold savedId
  split_ifs with hfound
  · obtain ⟨row, hrow, heq⟩ := hfound
    rw [← heq]
    exact h.pcs row hrow
  · exact h.nextPc.ne'

theorem exists_saved (db : Database) (pc : Pc) :
    ∃ row ∈ (withPc db pc).pcs, row.accountId = pc.accountId ∧ row.id = savedId db pc := by
  unfold withPc savedId
  split_ifs with hfound
  · obtain ⟨row, hrow, heq⟩ := hfound
    exact ⟨pc, List.mem_map.mpr ⟨row, hrow, if_pos heq⟩, rfl, rfl⟩
  · exact ⟨{ pc with id := db.nextPc },
      List.mem_append_right _ (List.mem_singleton.mpr rfl), rfl, rfl⟩

/-- All statements of a save. -/
theorem Sound.save_eq {db : Database} (h : Sound db) {player : PlayerPC} (hplayer : Scalars player)
    {js : List JSONSource} (hjs : extractJSONFromTree player = some js) (pc : Pc) :
    savePc collate column db pc (combineJSON js) =
      some (withRows (Characters.withPc db pc) (Characters.savedRows collate column (savedId db pc)
        (filledSources player) db.pcattribs), savedId db pc) := by
  rw [savePc_eq, hplayer.combine_eq hjs,
    savePcAttribs_eq hplayer.filled (h.savedId_ne pc), withPc_pcattribs, Option.map_some]

theorem Sound.saved (hcolumn : ∀ text kept, column text = some kept → kept <+: text) {db : Database}
    (h : Sound db) (pc : Pc) {player : PlayerPC} (hplayer : Scalars player) :
    Sound (withRows (Characters.withPc db pc) (Characters.savedRows collate column (savedId db pc)
      (filledSources player) db.pcattribs)) := by
  rw [← withPc_pcattribs db pc]
  exact (h.withPc pc).savedRows hcolumn hplayer.filled (savedId db pc)

theorem Stored.sound (hcolumn : ∀ text kept, column text = some kept → kept <+: text)
    {db : Database}
    (h : Stored collate column db) : Sound db := by
  induction h with
  | new hrows hnext hpcs =>
      refine ⟨?_, ?_, hnext, hpcs⟩
      · rw [hrows]
        exact List.Pairwise.nil
      · intro row hrow
        rw [hrows] at hrow
        cases hrow
  | @save db db' pc player js id _ hplayer hjs hsave ih =>
      rw [ih.save_eq hplayer hjs] at hsave
      obtain ⟨rfl, -⟩ := Prod.mk.inj (Option.some.inj hsave)
      exact ih.saved hcolumn pc hplayer

variable (collate) in
theorem Sound.loadPc_eq {db : Database} (h : Sound db) {accountId id : ℤ} (haccount : accountId ≠ 0)
    (hid : id ≠ 0) (hpc : ∃ row ∈ db.pcs, row.accountId = accountId ∧ row.id = id) :
    ∃ row, loadPc collate db accountId id = some (row, (rowOf db.pcattribs id).bind fun row ↦
      combineJSON [⟨.ofBytes row.attribsrc, some row.attribjson⟩]) := by
  have hattribs : loadPcAttribs collate db id = (rowOf db.pcattribs id).bind fun row ↦
      combineJSON [⟨.ofBytes row.attribsrc, some row.attribjson⟩] := by
    rw [loadPcAttribs, if_neg hid]
    simp only [execute, filter_eq_toList h.keys]
    cases rowOf db.pcattribs id <;> rfl
  obtain ⟨row, hrow, hfound⟩ := hpc
  have hmem : row ∈ db.pcs.filter fun row ↦ row.accountId = accountId ∧ row.id = id :=
    List.mem_filter.mpr ⟨hrow, by simpa using hfound⟩
  obtain ⟨first, rest, hrows⟩ := List.exists_cons_of_ne_nil (List.ne_nil_of_mem hmem)
  refine ⟨first, ?_⟩
  rw [loadPc, if_neg (by simp [haccount, hid])]
  simp only [execute, hrows, hattribs]

/-- A pc survives if the row that is left of it holds what the pc holds. -/
theorem survives_iff_row (hcolumn : ∀ text kept, column text = some kept → kept <+: text)
    {db : Database} (h : Sound db) {pc : Pc} (haccount : pc.accountId ≠ 0) {player : PlayerPC}
    (hplayer : Scalars player) :
    Survives collate column db pc player ↔ player.sources ≠ none ∧ ∃ row e,
      rowOf (savedRows collate column (savedId db pc) (filledSources player) db.pcattribs)
        (savedId db pc) = some row ∧ Holds row e ∧ ∀ source attrib,
          (if rank e.1 = source then (latest (e.2.map keptMember) attrib none).map shown
            else none) =
            held player.sources source attrib := by
  have hsound : Sound (withRows (withPc db pc) (savedRows collate column (savedId db pc)
      (filledSources player) db.pcattribs)) := h.saved hcolumn pc hplayer
  obtain ⟨loadedRow, hload⟩ := hsound.loadPc_eq collate haccount (h.savedId_ne pc)
    (exists_saved db pc)
  constructor
  · rintro ⟨js, db', id, row, json, loaded, hjs, hsave, hloaded, hdecode, hheld⟩
    have hsources : player.sources ≠ none := by
      intro hnone
      rw [extractJSONFromTree, hnone] at hjs
      cases hjs
    refine ⟨hsources, ?_⟩
    rw [h.save_eq hplayer hjs] at hsave
    obtain ⟨rfl, rfl⟩ := Prod.mk.inj (Option.some.inj hsave)
    rw [hload] at hloaded
    obtain ⟨rfl, rfl⟩ := Prod.mk.inj (Option.some.inj hloaded)
    change decode ((rowOf (savedRows collate column (savedId db pc) (filledSources player)
      db.pcattribs) (savedId db pc)).bind _) = _ at hdecode
    cases hrow : rowOf (savedRows collate column (savedId db pc)
      (filledSources player) db.pcattribs)
      (savedId db pc) with
    | none =>
        rw [hrow] at hdecode
        cases hdecode
    | some row =>
        rw [hrow, Option.bind_some] at hdecode
        obtain ⟨e, he⟩ := hsound.rows row ((rowOf_eq_some hsound.keys).mp hrow).1
        obtain ⟨loaded', hloaded', hentries⟩ := he.decode
        obtain rfl := Option.some.inj (hdecode.symm.trans hloaded')
        refine ⟨row, e, rfl, he, ?_⟩
        intro source attrib
        rw [← hentries, hheld]
  · rintro ⟨hsources, row, e, hrow, he, hheld⟩
    obtain ⟨sources, hsources⟩ := Option.ne_none_iff_exists'.mp hsources
    obtain ⟨loaded, hdecode, hentries⟩ := he.decode
    obtain ⟨js, hjs⟩ : ∃ js, extractJSONFromTree player = some js := by
      rw [extractJSONFromTree, hsources]
      exact ⟨_, rfl⟩
    refine ⟨js, _, _, _, _, loaded, hjs, h.save_eq hplayer hjs pc, hload, ?_, ?_⟩
    · change decode ((rowOf (savedRows collate column (savedId db pc) (filledSources player)
        db.pcattribs) (savedId db pc)).bind _) = _
      rw [hrow, Option.bind_some]
      exact hdecode
    · intro source attrib
      rw [hentries, hheld]

end Saves

/-! ## Which pcs survive -/

section Survival

variable {collate : Text → Text} {column : Text → Option Text}

/-- The row of a pc, if it has one, is that of the source, and otherwise the column takes its
name. -/
def Keeps (column : Text → Option Text) (row : Option PcAttribs) (name : CString) : Prop :=
  match row with
  | some row => fold row.attribsrc = fold name.val
  | none => column name.val = some name.val

variable (hcollate : ∀ a b, fold a = fold b → collate a = collate b)
  (hcolumn : ∀ text kept, column text = some kept → kept <+: text)

include hcollate in
theorem Keeps.exists_row {rows : List PcAttribs}
    (hkeys : rows.Pairwise fun row row' ↦ row.pcId ≠ row'.pcId) {id : ℤ} {name : CString}
    (h : Keeps column (rowOf rows id) name) (json : Text) :
    ∃ row, rowOf (nextRows collate column id name.val json rows) id = some row ∧
      fold row.attribsrc = fold name.val ∧ row.attribjson = json := by
  rw [rowOf_nextRows hkeys]
  cases hrow : rowOf rows id with
  | some row =>
      rw [hrow] at h
      have hid := ((rowOf_eq_some hkeys).mp hrow).2
      refine ⟨_, rfl, ?_⟩
      rw [updated, if_pos ⟨hid, hcollate _ _ h⟩]
      exact ⟨h, rfl⟩
  | none =>
      rw [hrow, Keeps] at h
      rw [h]
      exact ⟨_, rfl, rfl, rfl⟩

include hcolumn in
theorem keeps_of_fold {rows : List PcAttribs}
    (hkeys : rows.Pairwise fun row row' ↦ row.pcId ≠ row'.pcId) {id : ℤ} {name : CString}
    {json : Text} {row : PcAttribs}
    (hrow : rowOf (nextRows collate column id name.val json rows) id = some row)
    (hfold : fold row.attribsrc = fold name.val) : Keeps column (rowOf rows id) name := by
  rw [rowOf_nextRows hkeys] at hrow
  cases hold : rowOf rows id with
  | some old =>
      rw [hold] at hrow
      obtain rfl := Option.some.inj hrow
      unfold updated at hfold
      split_ifs at hfold <;> exact hfold
  | none =>
      rw [hold] at hrow
      obtain ⟨attribsrc, hkept, rfl⟩ := Option.map_eq_some_iff.mp hrow
      have hlength : attribsrc.length = name.val.length := by
        simpa [fold] using congrArg List.length hfold
      rw [Keeps, hkept, (hcolumn _ _ hkept).eq_of_length hlength]

include hcollate in
/-- The row of a source that is kept holds the text of the source. -/
theorem Keeps.kept_eq {rows : List PcAttribs}
    (hkeys : rows.Pairwise fun row row' ↦ row.pcId ≠ row'.pcId) {id : ℤ} {f : Source}
    (hfilled : Filled f) (hkeeps : Keeps column (rowOf rows id) f.1) {row : PcAttribs}
    (hrow : rowOf (nextRows collate column id f.1.val ((print (.object f.2)).getD []) rows) id =
      some row) {e : Source} (he : Holds row e) : e.2.map keptMember = f.2.map keptMember := by
  obtain ⟨row', hrow', -, hjson⟩ := hkeeps.exists_row hcollate hkeys ((print (.object f.2)).getD [])
  obtain rfl := Option.some.inj (hrow.symm.trans hrow')
  apply kept_eq_of_print he.filled.fits he.filled.filled hfilled.fits hfilled.filled
  obtain ⟨text, htext, -⟩ := exists_text hfilled.fits hfilled.filled
  rw [he.attribjson, hjson, htext]
  rfl

include hcollate hcolumn in
/-- A pc survives a save and a load exactly if only one source has attributes, all of it is printed
without loss, and the row of the pc is that of the source or is made for it. -/
theorem pc_survives_iff {db : Database} (hdb : Stored collate column db) {pc : Pc}
    (haccount : pc.accountId ≠ 0) {player : PlayerPC} (hplayer : Scalars player) :
    Survives collate column db pc player ↔ ∃ e, filledSources player = [e] ∧ PrintableText e.1 ∧
      (∀ member ∈ e.2, Plain member) ∧
      Keeps column (rowOf db.pcattribs (savedId db pc)) e.1 := by
  have hsound := hdb.sound hcolumn
  have hrows : ∀ f, filledSources player = [f] → PrintableText f.1 →
      savedRows collate column (savedId db pc) (filledSources player) db.pcattribs =
        nextRows collate column (savedId db pc) f.1.val ((print (.object f.2)).getD [])
          db.pcattribs := by
    intro f hsources hname
    rw [hsources, savedRows, List.foldl_cons, List.foldl_nil, keptText_eq_self.mpr hname]
  rw [survives_iff_row hcolumn hsound haccount hplayer]
  constructor
  · rintro ⟨-, row, e, hrow, he, hheld⟩
    obtain ⟨f, hsources, hrank⟩ := hplayer.filledSources_eq he.filled hheld
    have hmem : f ∈ filledSources player := hsources ▸ List.mem_cons_self
    have hname : PrintableText f.1 := printableText_of_fold hrank he.name
    have hfold : fold row.attribsrc = fold f.1.val := by
      rw [he.attribsrc]
      exact hrank
    rw [hrows f hsources hname] at hrow
    have hkeeps := keeps_of_fold hcolumn hsound.keys hrow hfold
    refine ⟨f, hsources, hname, ?_, hkeeps⟩
    have hkept := hkeeps.kept_eq hcollate hsound.keys (hplayer.filled f hmem) hrow he
    apply (latest_kept_iff (hplayer.distinct_members hmem) (hplayer.filled f hmem).fits).mp
    intro attrib
    have hattrib := hheld (rank f.1) attrib
    rw [if_pos hrank, hkept, hplayer.held_eq, find?_of_key hplayer.distinct hmem] at hattrib
    exact hattrib
  · rintro ⟨f, hsources, hname, hplain, hkeeps⟩
    have hmem : f ∈ filledSources player := hsources ▸ List.mem_cons_self
    obtain ⟨row, hrow, hfold, -⟩ := hkeeps.exists_row hcollate hsound.keys
      ((print (.object f.2)).getD [])
    have hnext := hrow
    rw [← hrows f hsources hname] at hrow
    have hsaved : Sound (withRows (withPc db pc) (savedRows collate column (savedId db pc)
        (filledSources player) db.pcattribs)) := hsound.saved hcolumn pc hplayer
    obtain ⟨e, he⟩ := hsaved.rows row ((rowOf_eq_some hsaved.keys).mp hrow).1
    have hrank : rank e.1 = rank f.1 := by
      rw [he.attribsrc] at hfold
      exact hfold
    have hkept := hkeeps.kept_eq hcollate hsound.keys (hplayer.filled f hmem) hnext he
    refine ⟨sources_ne_none hmem, row, e, hrow, he, ?_⟩
    intro source attrib
    rw [hkept, hrank, hplayer.held_eq, hsources]
    by_cases hsource : rank f.1 = source
    · rw [if_pos hsource, List.find?_cons_of_pos (by simpa using hsource), Option.bind_some]
      exact (latest_kept_iff (hplayer.distinct_members hmem) (hplayer.filled f hmem).fits).mpr
        hplain attrib
    · rw [if_neg hsource, List.find?_cons_of_neg (by simpa using hsource)]
      rfl

end Survival

/-- A column that cuts what is too long. -/
def varchar (text : Text) : Option Text :=
  some (text.take 255)

theorem varchar_cuts {text kept : Text} (h : varchar text = some kept) : kept <+: text := by
  rw [← Option.some.inj h]
  exact List.take_prefix 255 text

/-- The attribute `sex` of a source. -/
def setSex (source : CString) (player : PlayerPC) : Option PlayerPC :=
  setAttributeInt player sexName source 1

theorem Reachable.setSex {player player' : PlayerPC} (h : Reachable player) {source : CString}
    (hsource : PrintableText source) (hset : setSex source player = some player') :
    Reachable player' := by
  apply Reachable.setAttributeInt h _ hset
  exact such_memberText (by unfold PlainName; decide +kernel) hsource (.number 1)
    ⟨by decide, by decide⟩
    (.number (by decide) (by decide))

/-- A new pc with one attribute. -/
theorem pc_survives_first : ∃ player, setSex corePc .fresh = some player ∧
    Survives lowerText varchar ⟨[], [], 1, [], 1, []⟩ ⟨0, 1, [97]⟩ player := by
  obtain ⟨player, hset⟩ := Option.isSome_iff_exists.mp
    (by decide +kernel : (setSex corePc .fresh).isSome = true)
  have hfacts : (setSex corePc .fresh).any (fun player ↦
      (filledSources player).length = 1 ∧
        (filledSources player).all fun e ↦ e.1.val.length ≤ 255) = true := by
    decide +kernel
  rw [hset, Option.any_some, decide_eq_true_eq] at hfacts
  have hreachable := Reachable.setSex .fresh (printableText_of_le (by decide +kernel)) hset
  obtain ⟨e, he⟩ := List.length_eq_one_iff.mp hfacts.1
  have hmem : e ∈ filledSources player := he ▸ List.mem_cons_self
  have hlength : e.1.val.length ≤ 255 := by simpa using List.all_eq_true.mp hfacts.2 e hmem
  obtain ⟨old, hold, rfl⟩ := List.mem_map.mp (List.mem_of_mem_filter hmem)
  refine ⟨player, hset, (pc_survives_iff (fun _ _ ↦ lowerText_of_fold) (fun _ _ ↦ varchar_cuts)
    (.new rfl (by decide) ?_)
    (by decide) (scalars_of_reachable hreachable)).mpr ⟨_, he, hreachable.inv.plain.names old hold,
      hreachable.inv.plain.members old hold, ?_⟩⟩
  · intro row hrow
    cases hrow
  · exact congrArg some (List.take_of_length_le hlength)

/-- The second source is refused by the primary key. -/
theorem pc_second_source_lost : ∃ player,
    (setSex corePc .fresh).bind (setSex raceSource) = some player ∧ Scalars player ∧
      Stored lowerText varchar ⟨[], [], 1, [], 1, []⟩ ∧
      ¬ Survives lowerText varchar ⟨[], [], 1, [], 1, []⟩ ⟨0, 1, [97]⟩ player := by
  obtain ⟨player, hset⟩ := Option.isSome_iff_exists.mp (by decide +kernel :
    ((setSex corePc .fresh).bind (setSex raceSource)).isSome = true)
  have hfacts : ((setSex corePc .fresh).bind (setSex raceSource)).any (fun player ↦
      (filledSources player).length = 2) = true := by
    decide +kernel
  rw [hset, Option.any_some, decide_eq_true_eq] at hfacts
  obtain ⟨first, hfirst, hsecond⟩ := Option.bind_eq_some_iff.mp hset
  have hscalars := scalars_of_reachable (Reachable.setSex (Reachable.setSex .fresh
    (printableText_of_le (by decide +kernel)) hfirst)
    (printableText_of_le (by decide +kernel)) hsecond)
  have hstored : Stored lowerText varchar ⟨[], [], 1, [], 1, []⟩ :=
    .new rfl (by decide) (fun row hrow ↦ by cases hrow)
  have hcolumn : ∀ text kept, varchar text = some kept → kept <+: text := fun _ _ ↦ varchar_cuts
  refine ⟨player, hset, hscalars, hstored, ?_⟩
  intro hsurvives
  obtain ⟨-, row, e, -, he, hheld⟩ :=
    (survives_iff_row hcolumn (hstored.sound hcolumn) (by decide) hscalars).mp hsurvives
  obtain ⟨f, hsources, -⟩ := hscalars.filledSources_eq he.filled hheld
  rw [hsources] at hfacts
  cases hfacts

end HavokMud.Mysql.Characters
