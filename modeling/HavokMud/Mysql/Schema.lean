import HavokMud.Mysql.Tokens

/-!
# The schema of the database

`db_check_schema` upgrades the database from the stored version to the version that the code
supports, one step at a time.  The version travels through the table of settings: it is stored as a
text after each step and read again before the next one.
-/

namespace HavokMud.Mysql

open Sql (isDigit_ofNat)
open Sql.Mode (isDigit)

/-! ## Numbers in texts -/

/-- `isspace` of the C locale. -/
def isSpace (c : UInt8) : Bool :=
  c = 32 ∨ (9 ≤ c ∧ c ≤ 13)

/-- The number that a text of digits begins with. -/
def leadingNumber (text : List UInt8) : ℕ :=
  (text.takeWhile isDigit).foldl (fun n c ↦ 10 * n + (c.toNat - 48)) 0

/-- `strtol` in base 10, which stops at the bounds of a `long`. -/
def strtol (nptr : List UInt8) : ℤ :=
  let text := nptr.dropWhile isSpace
  if text.head? = some 45 then max (-2 ^ 63) (-(leadingNumber text.tail))
  else if text.head? = some 43 then min (2 ^ 63 - 1) (leadingNumber text.tail)
  else min (2 ^ 63 - 1) (leadingNumber text)

def atoi (nptr : List UInt8) : Int32 :=
  .ofInt (strtol nptr)

/-! ## The upgrade -/

section Upgrade

variable {σ : Type}

/-- What is done to the database. -/
inductive SchemaAction (σ : Type)
  | query (queryPattern : σ)
  | store (version : ℤ)
deriving DecidableEq

/-- The stored version and what was done so far. -/
structure SchemaState (σ : Type) where
  setting : Option (List UInt8)
  actions : List (SchemaAction σ)
deriving DecidableEq

/-- `MAX_SCHEMA_QUERY`. -/
def maxSchemaQuery : ℕ := 100

/-- `SchemaUpgrade_t`: an array of statements, with NULL behind the last one. -/
structure SchemaUpgrade (σ : Type) where
  queries : List σ
  fits : queries.length < maxSchemaQuery

/-- The steps up to a version. -/
structure SchemaTable (σ : Type) (codeSupports : Int32) where
  rows : List (SchemaUpgrade σ)
  complete : codeSupports.toInt ≤ rows.length

/-- `queryPattern`, which may be NULL. -/
def SchemaUpgrade.queryPattern (upgrade : SchemaUpgrade σ) (i : ℕ) : Option σ :=
  upgrade.queries[i]?

/-- The statements of a step. -/
def SchemaTable.queries {codeSupports : Int32} (table : SchemaTable σ codeSupports) (w : ℕ) :
    List σ :=
  (table.rows[w]?).elim [] SchemaUpgrade.queries

/-- `db_queue_query`. -/
def SchemaState.queueQuery (s : SchemaState σ) (queryPattern : σ) : SchemaState σ :=
  { s with actions := s.actions ++ [.query queryPattern] }

/-- `pb_set_setting` with the format `%d`. -/
def SchemaState.setSetting (s : SchemaState σ) (version : Int32) : SchemaState σ where
  setting := some (decimal version.toInt)
  actions := s.actions ++ [.store version.toInt]

/-- The version that is read from the settings. -/
def version (verString : Option (List UInt8)) : Int32 :=
  match verString with
  | none => 0
  | some verString => atoi verString

/-- The loop over the statements of a step, within its array. -/
def upgradeLoop (upgrade : SchemaUpgrade σ) : ℕ → ℕ → SchemaState σ → Option (SchemaState σ)
  | 0, _, _ => none
  | fuel + 1, i, s =>
      match upgrade.queryPattern i with
      | none => some s
      | some queryPattern => upgradeLoop upgrade fuel (i + 1) (s.queueQuery queryPattern)

variable (defSchema : List σ) {codeSupports : Int32} (table : SchemaTable σ codeSupports)

/-- `db_upgrade_schema`. -/
def dbUpgradeSchema (current : Int32) (s : SchemaState σ) : Option (Int32 × SchemaState σ) :=
  if current ≥ codeSupports then some (current, s)
  else if current ≤ 0 then
    some (codeSupports, (defSchema.foldl SchemaState.queueQuery s).setSetting codeSupports)
  else do
    let upgrade ← table.rows[current.toInt.toNat]?
    let s ← upgradeLoop upgrade maxSchemaQuery 0 s
    some (current + 1, s.setSetting (current + 1))

/-- `db_check_schema`. -/
def dbCheckSchema : ℕ → SchemaState σ → Option (SchemaState σ)
  | 0, _ => none
  | fuel + 1, s =>
      let ver := version s.setting
      if ver < codeSupports then do
        let next ← dbUpgradeSchema defSchema table ver s
        if next.1 < codeSupports then dbCheckSchema fuel next.2 else some next.2
      else some s

end Upgrade

/-! ## A stored version is read back -/

theorem leadingNumber_digits {digits : List Char} (hdigits : ∀ d ∈ digits, d.isDigit = true) :
    leadingNumber (digits.map fun d ↦ UInt8.ofNat d.toNat) = Nat.ofDigitChars 10 digits 0 := by
  have hfold (k : ℕ) : ((digits.map fun d ↦ UInt8.ofNat d.toNat).takeWhile isDigit).foldl
      (fun n c ↦ 10 * n + (c.toNat - 48)) k = Nat.ofDigitChars 10 digits k := by
    induction digits generalizing k with
    | nil => rfl
    | cons d digits ih =>
        obtain ⟨hd, hrest⟩ := List.forall_mem_cons.mp hdigits
        obtain ⟨hdigit, htoNat⟩ := isDigit_ofNat hd
        rw [List.map_cons, List.takeWhile_cons_of_pos hdigit, List.foldl_cons, ih hrest,
          Nat.ofDigitChars_cons, htoNat]
        rfl
  exact hfold 0

theorem leadingNumber_toDigits (n : ℕ) :
    leadingNumber ((Nat.toDigits 10 n).map fun d ↦ UInt8.ofNat d.toNat) = n := by
  rw [leadingNumber_digits fun d hd ↦ Nat.isDigit_of_mem_toDigits (by decide) le_rfl hd]
  exact Nat.ofDigitChars_ten_toDigits

theorem isSpace_of_isDigit {c : UInt8} (hc : isDigit c = true) : isSpace c = false := by
  simp only [isDigit, UInt8.le_iff_toNat_le, UInt8.reduceToNat, decide_eq_true_eq] at hc
  simp only [isSpace, UInt8.le_iff_toNat_le, ← UInt8.toNat_inj, UInt8.reduceToNat,
    decide_eq_false_iff_not]
  omega

/-- A number that `%d` has printed is read back. -/
theorem strtol_decimal {n : ℤ} (hlow : -2 ^ 63 ≤ n) (hhigh : n < 2 ^ 63) :
    strtol (decimal n) = n := by
  have hvalue := leadingNumber_toDigits n.natAbs
  unfold strtol decimal
  dsimp only
  by_cases hneg : n < 0
  · rw [if_pos hneg, List.singleton_append, List.dropWhile_cons_of_neg (by decide)]
    rw [List.head?_cons, if_pos rfl, List.tail_cons, hvalue]
    omega
  · obtain ⟨d, digits, hdigits⟩ := List.exists_cons_of_ne_nil (Nat.toDigits_ne_nil (b := 10)
      (n := n.natAbs))
    have hd : d.isDigit = true :=
      Nat.isDigit_of_mem_toDigits (b := 10) (n := n.natAbs) (by decide) le_rfl
        (hdigits ▸ List.mem_cons_self)
    obtain ⟨hdigit, -⟩ := isDigit_ofNat hd
    have hother : ∀ c, isDigit c = false → some (UInt8.ofNat d.toNat) ≠ some c := by
      rintro c hc heq
      rw [Option.some.inj heq, hc] at hdigit
      cases hdigit
    rw [hdigits, List.map_cons] at hvalue ⊢
    rw [if_neg hneg, List.nil_append,
      List.dropWhile_cons_of_neg (Bool.eq_false_iff.mp (isSpace_of_isDigit hdigit)),
      List.head?_cons, if_neg (hother 45 rfl), if_neg (hother 43 rfl), hvalue]
    omega

theorem atoi_decimal (n : Int32) : atoi (decimal n.toInt) = n := by
  have hlow := n.le_toInt
  have hhigh := n.toInt_lt
  rw [atoi, strtol_decimal (by omega) (by omega)]
  exact Int32.ofInt_toInt n

/-! ## One step -/

section Steps

variable {σ : Type} {defSchema : List σ} {codeSupports : Int32} {table : SchemaTable σ codeSupports}
  {s : SchemaState σ}

theorem version_setSetting (n : Int32) : version (s.setSetting n).setting = n :=
  atoi_decimal n

/-- Statements are queued one after the other. -/
def SchemaState.queueAll (s : SchemaState σ) (queries : List σ) : SchemaState σ :=
  { s with actions := s.actions ++ queries.map .query }

theorem foldl_queueQuery (queries : List σ) (s : SchemaState σ) :
    queries.foldl SchemaState.queueQuery s = s.queueAll queries := by
  unfold SchemaState.queueAll
  induction queries generalizing s with
  | nil => rw [List.foldl_nil, List.map_nil, List.append_nil]
  | cons q queries ih =>
      rw [List.foldl_cons, ih, List.map_cons]
      unfold SchemaState.queueQuery
      rw [List.append_assoc]
      rfl

/-- The loop over a step queues its statements and ends at the NULL behind them. -/
theorem upgradeLoop_eq (upgrade : SchemaUpgrade σ) (s : SchemaState σ) :
    upgradeLoop upgrade maxSchemaQuery 0 s = some (s.queueAll upgrade.queries) := by
  have hloop : ∀ fuel i s, i + fuel = maxSchemaQuery → i ≤ upgrade.queries.length →
      upgradeLoop upgrade fuel i s = some ((upgrade.queries.drop i).foldl
        SchemaState.queueQuery s) := by
    intro fuel
    induction fuel with
    | zero =>
        intro i s hfuel hi
        have hfits := upgrade.fits
        omega
    | succ fuel ih =>
        intro i s hfuel hi
        unfold upgradeLoop SchemaUpgrade.queryPattern
        rcases hi.lt_or_eq with hlt | rfl
        · rw [List.getElem?_eq_getElem hlt, List.drop_eq_getElem_cons hlt, List.foldl_cons]
          exact ih (i + 1) _ (by omega) hlt
        · rw [List.getElem?_eq_none le_rfl, List.drop_length]
          rfl
  rw [hloop maxSchemaQuery 0 s rfl (Nat.zero_le _), List.drop_zero, foldl_queueQuery]

/-- No version yet: the default schema. -/
theorem dbUpgradeSchema_initial {current : Int32} (hcurrent : current.toInt ≤ 0)
    (hlt : current.toInt < codeSupports.toInt) :
    dbUpgradeSchema defSchema table current s =
      some (codeSupports, (s.queueAll defSchema).setSetting codeSupports) := by
  unfold dbUpgradeSchema
  rw [if_neg (by rw [ge_iff_le, Int32.le_iff_toInt_le]; omega),
    if_pos (Int32.le_iff_toInt_le.mpr hcurrent), foldl_queueQuery]

theorem toInt_add_one {current : Int32} (hlt : current.toInt < codeSupports.toInt) :
    (current + 1).toInt = current.toInt + 1 := by
  have hlow := current.le_toInt
  have hmax := codeSupports.toInt_lt
  have hone : (1 : Int32).toInt = 1 := rfl
  rw [Int32.toInt_add, hone]
  apply Int.bmod_eq_of_le <;> omega

/-- From one version to the next. -/
theorem dbUpgradeSchema_next {current : Int32} (hcurrent : 0 < current.toInt)
    (hlt : current.toInt < codeSupports.toInt) :
    dbUpgradeSchema defSchema table current s = some (current + 1,
      (s.queueAll (table.queries current.toInt.toNat)).setSetting (current + 1)) := by
  have hcomplete := table.complete
  have hrow : current.toInt.toNat < table.rows.length := by omega
  unfold dbUpgradeSchema SchemaTable.queries
  rw [if_neg (by rw [ge_iff_le, Int32.le_iff_toInt_le]; omega),
    if_neg (by rw [Int32.le_iff_toInt_le]; exact not_le.mpr hcurrent),
    List.getElem?_eq_getElem hrow]
  change (upgradeLoop _ maxSchemaQuery 0 s).bind _ = _
  rw [upgradeLoop_eq]
  rfl

/-! ## Runs -/

theorem dbCheckSchema_of_le (fuel : ℕ) (hle : codeSupports.toInt ≤ (version s.setting).toInt) :
    dbCheckSchema defSchema table (fuel + 1) s = some s := by
  unfold dbCheckSchema
  dsimp only
  rw [if_neg (by rw [Int32.lt_iff_toInt_lt]; omega)]

theorem dbCheckSchema_of_lt {fuel : ℕ} {ver : Int32} {s' : SchemaState σ}
    (hlt : (version s.setting).toInt < codeSupports.toInt)
    (hupgrade : dbUpgradeSchema defSchema table (version s.setting) s = some (ver, s'))
    (hstored : version s'.setting = ver) :
    dbCheckSchema defSchema table (fuel + 2) s = dbCheckSchema defSchema table (fuel + 1) s' := by
  have hfirst : dbCheckSchema defSchema table (fuel + 2) s =
      if ver < codeSupports then dbCheckSchema defSchema table (fuel + 1) s' else some s' := by
    rw [dbCheckSchema, if_pos (Int32.lt_iff_toInt_lt.mpr hlt), hupgrade]
    rfl
  rw [hfirst]
  split_ifs with hnext
  · rfl
  · rw [dbCheckSchema_of_le fuel]
    rw [hstored]
    exact not_lt.mp fun h ↦ hnext (Int32.lt_iff_toInt_lt.mpr h)

/-- What the steps from a version on do. -/
def SchemaTable.steps (table : SchemaTable σ codeSupports) (v k : ℕ) : List (SchemaAction σ) :=
  (List.range' v k).flatMap fun w ↦ (table.queries w).map .query ++ [.store (w + 1)]

theorem SchemaTable.steps_succ (table : SchemaTable σ codeSupports) (v k : ℕ) :
    table.steps v (k + 1) =
      (table.queries v).map .query ++ .store (v + 1) :: table.steps (v + 1) k := by
  unfold SchemaTable.steps
  rw [List.range'_succ, List.flatMap_cons, List.append_assoc]
  rfl

theorem dbCheckSchema_steps {k : ℕ} (hpos : 0 < (version s.setting).toInt)
    (hk : (version s.setting).toInt + k = codeSupports.toInt) :
    ∃ s', (∀ fuel, k < fuel → dbCheckSchema defSchema table fuel s = some s') ∧
      version s'.setting = codeSupports ∧
      s'.actions = s.actions ++ table.steps (version s.setting).toInt.toNat k := by
  induction k generalizing s with
  | zero =>
      refine ⟨s, ?_, Int32.toInt_inj.mp (by omega), (List.append_nil _).symm⟩
      intro fuel hfuel
      obtain ⟨fuel, rfl⟩ := Nat.exists_eq_succ_of_ne_zero (Nat.ne_of_gt hfuel)
      exact dbCheckSchema_of_le fuel (by omega)
  | succ k ih =>
      have hlt : (version s.setting).toInt < codeSupports.toInt := by omega
      set next := (s.queueAll (table.queries (version s.setting).toInt.toNat)).setSetting
        (version s.setting + 1)
      have hnext : version next.setting = version s.setting + 1 := version_setSetting _
      have hone : (version next.setting).toInt = (version s.setting).toInt + 1 := by
        rw [hnext, toInt_add_one hlt]
      obtain ⟨s', hrun, hstored, hactions⟩ := @ih next (by omega) (by omega)
      refine ⟨s', ?_, hstored, ?_⟩
      · intro fuel hfuel
        obtain ⟨fuel, rfl⟩ := Nat.exists_eq_add_of_le' (Nat.succ_le_of_lt hfuel)
        exact (dbCheckSchema_of_lt hlt (dbUpgradeSchema_next hpos hlt) hnext).trans
          (hrun (fuel + k + 1) (by omega))
      · have hindex : (version next.setting).toInt.toNat =
            (version s.setting).toInt.toNat + 1 := by omega
        have hstore : (version s.setting + 1).toInt =
            ((version s.setting).toInt.toNat : ℤ) + 1 := by
          rw [toInt_add_one hlt]
          omega
        calc
          s'.actions = next.actions ++ table.steps ((version s.setting).toInt.toNat + 1) k := by
            rw [hactions, hindex]
          _ = s.actions ++ (table.queries (version s.setting).toInt.toNat).map .query ++
              [.store ((version s.setting + 1).toInt)] ++
              table.steps ((version s.setting).toInt.toNat + 1) k := rfl
          _ = _ := by
            rw [table.steps_succ, hstore, List.append_assoc, List.append_assoc]
            rfl

/-- A database without a version gets the default schema. -/
theorem dbCheckSchema_initial {setting : Option (List UInt8)} (hzero : (version setting).toInt ≤ 0)
    (hlt : (version setting).toInt < codeSupports.toInt) (fuel : ℕ) :
    dbCheckSchema defSchema table (fuel + 2) ⟨setting, []⟩ =
      some ((SchemaState.queueAll ⟨setting, []⟩ defSchema).setSetting codeSupports) := by
  have hstored := version_setSetting (s := SchemaState.queueAll ⟨setting, []⟩ defSchema)
    codeSupports
  rw [dbCheckSchema_of_lt (s := ⟨setting, []⟩) hlt (dbUpgradeSchema_initial hzero hlt) hstored]
  exact dbCheckSchema_of_le fuel (le_of_eq (congrArg Int32.toInt hstored.symm))

/-- What `db_check_schema` does, given the version that is stored and the one that is supported. -/
structure Upgraded (defSchema : List σ) (table : SchemaTable σ codeSupports) (v n : ℤ)
    (s : SchemaState σ) : Prop where
  stored : (version s.setting).toInt = max v n
  nothing : n ≤ v → s.actions = []
  initial : v ≤ 0 → v < n → s.actions = defSchema.map .query ++ [.store n]
  steps : 0 < v → v < n → s.actions = (List.range' v.toNat (n - v).toNat).flatMap fun w ↦
    (table.queries w).map .query ++ [.store (w + 1)]

/-- The schema is brought from the stored version to the supported one, every step once and in
order, and the higher of the two versions is stored in the end. -/
theorem dbCheckSchema_upgrades (defSchema : List σ) (table : SchemaTable σ codeSupports)
    (setting : Option (List UInt8)) : ∃ s' : SchemaState σ,
      (∀ fuel, (codeSupports.toInt - (version setting).toInt).toNat + 1 < fuel →
        dbCheckSchema defSchema table fuel ⟨setting, []⟩ = some s') ∧
      Upgraded defSchema table (version setting).toInt codeSupports.toInt s' := by
  rcases le_or_gt codeSupports.toInt (version setting).toInt with hle | hlt
  · refine ⟨⟨setting, []⟩, ?_, (max_eq_left hle).symm, fun _ ↦ rfl, ?_, ?_⟩
    · intro fuel hfuel
      obtain ⟨fuel, rfl⟩ := Nat.exists_eq_succ_of_ne_zero (Nat.ne_zero_of_lt hfuel)
      exact dbCheckSchema_of_le fuel hle
    · exact fun _ hlt ↦ absurd hlt (not_lt.mpr hle)
    · exact fun _ hlt ↦ absurd hlt (not_lt.mpr hle)
  rcases le_or_gt (version setting).toInt 0 with hzero | hpos
  · refine ⟨(SchemaState.queueAll ⟨setting, []⟩ defSchema).setSetting codeSupports, ?_, ?_, ?_,
      fun _ _ ↦ rfl, ?_⟩
    · intro fuel hfuel
      obtain ⟨fuel, rfl⟩ := Nat.exists_eq_add_of_le' (show 2 ≤ fuel by omega)
      exact dbCheckSchema_initial hzero hlt fuel
    · rw [version_setSetting, max_eq_right hlt.le]
    · exact fun hle ↦ absurd hlt (not_lt.mpr hle)
    · exact fun hpos ↦ absurd hpos (not_lt.mpr hzero)
  · obtain ⟨s', hrun, hstored, hactions⟩ := @dbCheckSchema_steps σ defSchema codeSupports table
      ⟨setting, []⟩ (codeSupports.toInt - (version setting).toInt).toNat hpos
      (by change (version setting).toInt + _ = _; omega)
    refine ⟨s', fun fuel hfuel ↦ hrun fuel (by omega), ?_, ?_, ?_, ?_⟩
    · rw [hstored, max_eq_right hlt.le]
    · exact fun hle ↦ absurd hlt (not_lt.mpr hle)
    · exact fun hzero ↦ absurd hpos (not_lt.mpr hzero)
    · exact fun _ _ ↦ hactions

end Steps

end HavokMud.Mysql
