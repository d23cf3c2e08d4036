import HavokMud.Attributes.StringValues
import Mathlib.Data.Int.Bitwise
import Mathlib.Data.Rat.Defs

/-!
# Combining the sources of an attribute

`GetAttribute` without a source combines the values of all sources of an attribute, in a way that
the source `aggregate` names, beginning with the value of the source `core-pc`.  Neither of the two
is looked for in a way that returns.  The mutexes are no-ops here, and the numbers are integers,
whose `double` values are exact.
-/

namespace HavokMud.Attributes

open BinaryTree BTree SearchTree Json

/-! ## The ways to combine -/

/-- `AggregateOp_t`. -/
inductive AggregateOp
  | sum
  | subFromCore
  | average
  | recipSum
  | binOr
  | binAnd
  | logOr
  | logAnd
  | concat
deriving DecidableEq

/-- `aggOpMap`. -/
def aggOpMap : List (Text × AggregateOp × JsonType) :=
  [([43], .sum, .number), ([45], .subFromCore, .number), ([97, 118, 103], .average, .number),
    ([43, 49, 47, 120], .recipSum, .number), ([124], .binOr, .number), ([38], .binAnd, .number),
    ([124, 124], .logOr, .false), ([38, 38], .logAnd, .false), ([46], .concat, .string)]

/-- `AggregateVal_t`. -/
structure AggregateVal where
  iVal : ℤ
  fVal : ℚ
  bVal : Bool
  sVal : Option CString
  count : ℕ
  type : JsonType

/-- All bytes are zero, and so is the type of `false`. -/
def AggregateVal.zero : AggregateVal :=
  ⟨0, 0, false, none, 0, .false⟩

/-- A text names a way to combine, and otherwise the sum is taken, with the type left as it is. -/
def aggregateOp (aggOpText : CString) : AggregateOp × AggregateVal :=
  match aggOpMap.find? fun entry ↦ entry.1 = aggOpText.val with
  | some (_, op, type) => (op, { AggregateVal.zero with type := type })
  | none => (.sum, AggregateVal.zero)

/-- `valuedouble`, which the parser sets for numbers. -/
def valuedouble : Value → ℚ
  | .number value => value
  | _ => 0

/-- A conversion to `int`. -/
def truncated (value : ℚ) : ℤ :=
  value.num.tdiv value.den

/-- `core-pc`. -/
def corePc : CString :=
  ⟨[99, 111, 114, 101, 45, 112, 99], by decide⟩

/-- Two strings one behind the other. -/
def joined (left right : Option CString) : CString :=
  ⟨(left.elim [] Subtype.val) ++ right.elim [] Subtype.val, by
    rw [List.mem_append, not_or]
    constructor
    · cases left with
      | none => exact List.not_mem_nil
      | some left => exact left.property
    · cases right with
      | none => exact List.not_mem_nil
      | some right => exact right.property⟩

/-- The value of one source, in `AggregateAttrib`. -/
def aggregateValue (aggOp : AggregateOp) (jsonItem : Value) (aggVal : AggregateVal) :
    AggregateVal :=
  match aggOp with
  | .sum | .average =>
      if jsonItem.type = .number then
        { aggVal with fVal := aggVal.fVal + valuedouble jsonItem, count := aggVal.count + 1 }
      else aggVal
  | .subFromCore =>
      if jsonItem.type = .number then
        { aggVal with fVal := aggVal.fVal - valuedouble jsonItem, count := aggVal.count + 1 }
      else aggVal
  | .recipSum =>
      if jsonItem.type = .number ∧ valuedouble jsonItem ≠ 0 then
        { aggVal with fVal := aggVal.fVal + 1 / valuedouble jsonItem, count := aggVal.count + 1 }
      else aggVal
  | .binOr =>
      if jsonItem.type = .number then
        { aggVal with iVal := aggVal.iVal.lor jsonItem.valueint, count := aggVal.count + 1 }
      else aggVal
  | .binAnd =>
      if jsonItem.type = .number then
        { aggVal with iVal := aggVal.iVal.land jsonItem.valueint, count := aggVal.count + 1 }
      else aggVal
  | .logOr =>
      if jsonItem.type = .true ∨ jsonItem.type = .false then
        { aggVal with
          bVal := aggVal.bVal || decide (jsonItem.type = .true), count := aggVal.count + 1 }
      else aggVal
  | .logAnd =>
      if jsonItem.type = .true ∨ jsonItem.type = .false then
        { aggVal with
          bVal := aggVal.bVal && decide (jsonItem.type = .true), count := aggVal.count + 1 }
      else aggVal
  | .concat =>
      let text := joined aggVal.sVal jsonItem.valuestring
      if text.val = [] then aggVal
      else { aggVal with sVal := some text, count := aggVal.count + 1 }

/-- One item of the tree, in `AggregateAttrib`.  The names are compared with `strcmp`. -/
def aggregateItem (aggOp : AggregateOp) (aggVal : AggregateVal) (item : CString × Value) :
    AggregateVal :=
  if item.1 ≠ corePc ∧ item.1 ≠ Locks.aggregateSource then aggregateValue aggOp item.2 aggVal
  else aggVal

/-- `AggregateAttrib`. -/
def aggregateAttrib (aggOp : AggregateOp) : Tree → AggregateVal → AggregateVal
  | .nil, aggVal => aggVal
  | .node item left right, aggVal =>
      aggregateAttrib aggOp right (aggregateItem aggOp (aggregateAttrib aggOp left aggVal) item)

/-- What is made of the combined value at the end. -/
def finished (aggOp : AggregateOp) (aggVal : AggregateVal) : AggregateVal :=
  match aggOp with
  | .recipSum =>
      if aggVal.fVal ≠ 0 then
        { aggVal with fVal := 1 / aggVal.fVal, iVal := truncated (1 / aggVal.fVal) }
      else aggVal
  | .average =>
      if aggVal.count ≠ 0 then
        { aggVal with
          fVal := aggVal.fVal / aggVal.count, iVal := truncated (aggVal.fVal / aggVal.count) }
      else aggVal
  | .sum | .subFromCore => { aggVal with iVal := truncated aggVal.fVal }
  | .binOr | .binAnd => { aggVal with fVal := aggVal.iVal }
  | _ => aggVal

/-! ## `GetAttribute` -/

/-- The `cJSON` that `GetAttribute` returns. -/
structure Item where
  type : JsonType
  valueint : ℤ
  valuedouble : ℚ
  valuestring : Option CString

/-- The item of a combined value. -/
def AggregateVal.item (aggVal : AggregateVal) : Item where
  type :=
    if aggVal.type = .false ∨ aggVal.type = .true then if aggVal.bVal then .true else .false
    else aggVal.type
  valueint := aggVal.iVal
  valuedouble := aggVal.fVal
  valuestring := aggVal.sVal

/-- The eight bytes of `core-pc`, read as an address. -/
def coreAddress : ℕ :=
  Nat.ofDigits 256 (corePc.val.map UInt8.toNat)

section Reading

variable (strings : Locks.Strings) (stringAt : ℕ → Option CString)

/-- `cJSON_Clone` of a value. -/
def Item.ofValue (value : Value) : Item where
  type := value.type
  valueint := value.valueint
  valuedouble := Attributes.valuedouble value
  valuestring := value.valuestring.map strings.memstrlink

/-- The search for `core-pc`.  `KeyCompareString` takes the bytes of the name for the address of
one, and there is no result when nothing can be read there. -/
def searchCore (subTree : Tree) : Option (Option Value) :=
  match subTree with
  | .nil => some none
  | .node _ _ _ => (stringAt coreAddress).map fun name ↦ Dictionary.lookup compareKeys name subTree

/-- The value that is combined first. -/
def AggregateVal.withCore (aggVal : AggregateVal) : Option Value → AggregateVal
  | none => aggVal
  | some jsonItem =>
      ⟨jsonItem.valueint, Attributes.valuedouble jsonItem, decide (jsonItem.type = .true),
        jsonItem.valuestring.map strings.memstrlink, 1, jsonItem.type⟩

/-- What `GetAttribute` does with the tree of an attribute.  There is no result when NULL is
followed. -/
def onSubTree (pc : PlayerPC) (attrib : CString)
    (body : Tree → Option (Option Item)) : Option (Option Item) :=
  match pc.attribs.bind (Dictionary.lookup compareKeys attrib) with
  | none => some none
  | some subTree => body subTree

/-- `GetAttribute` with a source. -/
def getAttributeFrom (pc : PlayerPC) (attrib source : CString) : Option (Option Item) :=
  onSubTree pc attrib fun subTree ↦
    (Dictionary.lookup compareKeys source subTree).map fun value ↦
      some (Item.ofValue strings value)

/-- The text of the source `aggregate`, or the default. -/
def aggOpText : Option Item → Option CString
  | some jsonItem => jsonItem.valuestring
  | none => some ⟨[43], by decide⟩

/-- `GetAttribute` without a source. -/
def getAttributeCombined (pc : PlayerPC) (attrib : CString) : Option (Option Item) :=
  onSubTree pc attrib fun subTree ↦ do
    let jsonItem ← getAttributeFrom strings pc attrib Locks.aggregateSource
    let text ← aggOpText jsonItem
    let (aggOp, aggVal) := aggregateOp text
    let core ← searchCore stringAt subTree
    some (some (finished aggOp (aggregateAttrib aggOp subTree (aggVal.withCore strings core))).item)

/-- `GetAttribute`. -/
def getAttribute (pc : PlayerPC) (attrib : CString) : Option CString → Option (Option Item)
  | some source => getAttributeFrom strings pc attrib source
  | none => getAttributeCombined strings stringAt pc attrib

end Reading

/-- With a source, the calls with mutexes that return give the same. -/
theorem getAttribute_of_locked (strings : Locks.Strings) (stringAt : ℕ → Option CString)
    {combine : Option Value → CString → Tree → Value} {pc : PlayerPC} {attrib source : CString}
    {value : Option Value} {held : Finset Locks.Mutex}
    (h : Locks.getAttribute combine (some pc.named) (some attrib) (some source) ∅ =
      .ok (value, held)) :
    getAttribute strings stringAt pc attrib (some source) =
      some (value.map (Item.ofValue strings)) := by
  have hclone : ∀ value : Value, Item.ofValue strings value.clone = Item.ofValue strings value := by
    intro value
    cases value <;> rfl
  unfold getAttribute getAttributeFrom onSubTree
  cases hattribs : pc.attribs with
  | none =>
      rw [Locks.getAttribute_null (some source) (.inl (by simp [PlayerPC.named, hattribs]))] at h
      cases h
      rfl
  | some trees =>
      have hnamed : pc.named.attribs = some (.named trees) := by simp [PlayerPC.named, hattribs]
      rw [Locks.getAttribute_named combine hnamed] at h
      obtain ⟨-, held₁, h⟩ := Interaction.Locking.within_eq_ok h
      obtain ⟨found, held₂, hfound, h⟩ := Interaction.Locking.bind_eq_ok.mp h
      cases hfound
      rw [Option.bind_some]
      cases hlookup : Dictionary.lookup compareKeys attrib trees with
      | none =>
          rw [hlookup] at h
          cases h
          rfl
      | some subTree =>
          rw [hlookup] at h
          obtain ⟨-, held₃, h⟩ := Interaction.Locking.within_eq_ok h
          obtain ⟨item, held₄, hitem, h⟩ := Interaction.Locking.bind_eq_ok.mp h
          cases hsource : Dictionary.lookup compareKeys source subTree with
          | none =>
              rw [hsource] at hitem
              cases hitem
          | some stored =>
              rw [hsource] at hitem
              cases hitem
              cases h
              dsimp only
              rw [hsource, Option.map_some, Option.map_some, hclone]

/-! ## What is combined -/

theorem aggregateAttrib_eq (aggOp : AggregateOp) (tree : Tree) (aggVal : AggregateVal) :
    aggregateAttrib aggOp tree aggVal = (inorder tree).foldl (aggregateItem aggOp) aggVal := by
  induction tree generalizing aggVal with
  | nil => rfl
  | node item left right ihl ihr =>
      rw [aggregateAttrib, ihr, ihl, inorder_node, List.foldl_append, List.foldl_cons]

/-- What `AggregateAttrib` sees of the values, from left to right. -/
def seen {β : Type} (view : Value → Option β) (tree : Tree) : List β :=
  ((inorder tree).filter fun item ↦ item.1 ≠ corePc ∧ item.1 ≠ Locks.aggregateSource).filterMap
    fun item ↦ view item.2

/-- A part of the combined value that a step changes by what it sees of the value. -/
theorem aggregateAttrib_part {α β : Type} (part : AggregateVal → α) (f : α → β → α)
    (view : Value → Option β) {aggOp : AggregateOp}
    (hstep : ∀ jsonItem aggVal, part (aggregateValue aggOp jsonItem aggVal) =
      (view jsonItem).elim (part aggVal) (f (part aggVal))) (tree : Tree) (aggVal : AggregateVal) :
    part (aggregateAttrib aggOp tree aggVal) = (seen view tree).foldl f (part aggVal) := by
  rw [aggregateAttrib_eq, seen]
  induction inorder tree generalizing aggVal with
  | nil => rfl
  | cons item items ih =>
      rw [List.foldl_cons, ih, List.filter_cons]
      unfold aggregateItem
      by_cases hitem : item.1 ≠ corePc ∧ item.1 ≠ Locks.aggregateSource
      · rw [if_pos hitem, if_pos (by simpa using hitem), List.filterMap_cons, hstep]
        cases view item.2 <;> rfl
      · rw [if_neg hitem, if_neg (by simpa using hitem)]

/-- The integer of a number. -/
def numberOf : Value → Option ℤ
  | .number value => some value
  | _ => none

def boolOf : Value → Option Bool
  | .true => some true
  | .false => some false
  | _ => none

theorem aggregateAttrib_binAnd (tree : Tree) (aggVal : AggregateVal) :
    (aggregateAttrib .binAnd tree aggVal).iVal =
      (seen numberOf tree).foldl Int.land aggVal.iVal := by
  refine aggregateAttrib_part AggregateVal.iVal Int.land numberOf (fun jsonItem aggVal ↦ ?_) tree
    aggVal
  cases jsonItem <;> rfl

theorem aggregateAttrib_logAnd (tree : Tree) (aggVal : AggregateVal) :
    (aggregateAttrib .logAnd tree aggVal).bVal = (seen boolOf tree).foldl and aggVal.bVal := by
  refine aggregateAttrib_part AggregateVal.bVal and boolOf (fun jsonItem aggVal ↦ ?_) tree aggVal
  cases jsonItem <;> rfl

/-- Without a value of `core-pc`, which would come first, `&` is left with zero. -/
theorem binAnd_of_zero (tree : Tree) (type : JsonType) :
    (aggregateAttrib .binAnd tree { AggregateVal.zero with type := type }).iVal = 0 := by
  rw [aggregateAttrib_binAnd]
  change (seen numberOf tree).foldl Int.land 0 = 0
  induction seen numberOf tree with
  | nil => rfl
  | cons n numbers ih =>
      have hzero : Int.land 0 n = 0 := by
        cases n <;> simp [Int.land, Nat.ldiff, Nat.bitwise_zero_left]
      rw [List.foldl_cons, hzero, ih]

/-- And `&&` with false. -/
theorem logAnd_of_zero (tree : Tree) (type : JsonType) :
    (aggregateAttrib .logAnd tree { AggregateVal.zero with type := type }).bVal = false := by
  rw [aggregateAttrib_logAnd]
  change (seen boolOf tree).foldl and false = false
  induction seen boolOf tree with
  | nil => rfl
  | cons b bools ih => exact ih

/-! ## What the combination is for -/

/-- The fold of some parts, the first of which comes as it is. -/
def foldParts {α : Type} (f : α → α → α) : List α → Option α
  | [] => none
  | first :: parts => some (parts.foldl f first)

/-- What can be seen of the value of `core-pc`, and then of the other sources in ascending order. -/
def parts {α : Type} (view : Value → Option α) (subTree : Tree) : List α :=
  ((Dictionary.value rank subTree (rank corePc)).bind view).toList ++
    ((inorder subTree).filter fun item ↦
        rank item.1 ≠ rank corePc ∧ rank item.1 ≠ rank Locks.aggregateSource).filterMap
      fun item ↦ view item.2

/-- The way to combine that the source `aggregate` names, and the sum without such a source. -/
def operation (subTree : Tree) : Option AggregateOp :=
  match Dictionary.value rank subTree (rank Locks.aggregateSource) with
  | none => some .sum
  | some value => value.valuestring.bind fun text ↦
      (aggOpMap.find? fun entry ↦ entry.1 = text.val).map fun entry ↦ entry.2.1

/-- `GetAttribute` without a source returns the fold that is named, if there is anything to fold. -/
def Aggregates (strings : Locks.Strings) (stringAt : ℕ → Option CString) (pc : PlayerPC)
    (attrib : CString) (subTree : Tree) : Prop :=
  ∃ item, getAttribute strings stringAt pc attrib none = some (some item) ∧
    match operation subTree with
    | some .sum => ∀ n ∈ foldParts (· + ·) (parts numberOf subTree),
        item.type = .number ∧ item.valueint = n
    | some .subFromCore => ∀ n ∈ foldParts (· - ·) (parts numberOf subTree),
        item.type = .number ∧ item.valueint = n
    | some .binOr => ∀ n ∈ foldParts Int.lor (parts numberOf subTree),
        item.type = .number ∧ item.valueint = n
    | some .binAnd => ∀ n ∈ foldParts Int.land (parts numberOf subTree),
        item.type = .number ∧ item.valueint = n
    | some .logOr => ∀ b ∈ foldParts or (parts boolOf subTree),
        item.type = if b then .true else .false
    | some .logAnd => ∀ b ∈ foldParts and (parts boolOf subTree),
        item.type = if b then .true else .false
    | some .concat => ∀ text ∈ foldParts (fun left right ↦ joined (some left) (some right))
          (parts Value.valuestring subTree),
        item.type = .string ∧ item.valuestring = some text
    | some .average | some .recipSum | none => True

section Never

variable {strings : Locks.Strings} {stringAt : ℕ → Option CString} {pc : PlayerPC}
  {attrib : CString} {subTree : Tree}

/-- Without a source `aggregate` the item that was not found is followed. -/
theorem getAttribute_without_aggregate
    (h : pc.attribs.bind (Dictionary.lookup compareKeys attrib) = some subTree)
    (haggregate : Dictionary.lookup compareKeys Locks.aggregateSource subTree = none) :
    getAttribute strings stringAt pc attrib none = none := by
  simp [getAttribute, getAttributeCombined, getAttributeFrom, onSubTree, h, haggregate]

/-- Where there is an item, the search for `core-pc` follows the bytes of the name. -/
theorem getAttribute_of_unreadable
    (h : pc.attribs.bind (Dictionary.lookup compareKeys attrib) = some subTree)
    (hne : subTree ≠ .nil) (hunreadable : stringAt coreAddress = none) :
    getAttribute strings stringAt pc attrib none = none := by
  have hcore : searchCore stringAt subTree = none := by
    cases subTree with
    | nil => exact absurd rfl hne
    | node item left right => simp [searchCore, hunreadable]
  simp [getAttribute, getAttributeCombined, onSubTree, h, hcore]

/-- Nothing is ever combined, as long as no address beyond those of user space can be read. -/
theorem aggregation_never (huser : ∀ address, 2 ^ 47 ≤ address → stringAt address = none)
    (h : pc.attribs.bind (Dictionary.lookup compareKeys attrib) = some subTree) :
    ¬ Aggregates strings stringAt pc attrib subTree := by
  rintro ⟨item, hitem, -⟩
  have hnone : getAttribute strings stringAt pc attrib none = none := by
    cases haggregate : Dictionary.lookup compareKeys Locks.aggregateSource subTree with
    | none => exact getAttribute_without_aggregate h haggregate
    | some value =>
        refine getAttribute_of_unreadable h ?_ (huser coreAddress (by decide +kernel))
        rintro rfl
        cases haggregate
  rw [hnone] at hitem
  cases hitem

end Never

/-- `sex` is 3 for `core-pc` and 4 for a race, which are to be added. -/
def sexTree : Tree :=
  .node (corePc, .number 3) (.node (Locks.aggregateSource, .string ⟨[43], by decide⟩) .nil .nil)
    (.node (raceSource, .number 4) .nil .nil)

theorem aggregation_never_sex :
    ¬ Aggregates Locks.lowerStrings (fun _ ↦ none)
      ⟨some (.node (sexName, sexTree) .nil .nil), none⟩ sexName sexTree :=
  aggregation_never (fun _ _ ↦ rfl) rfl

/-- `sex` as three calls of `AddAttribute` leave it. -/
def sexPc : Option PlayerPC :=
  (addAttribute (memberText sexName (printNumber 3)) corePc .fresh).bind fun pc ↦
    (addAttribute (memberText sexName [34, 43, 34]) Locks.aggregateSource pc).bind fun pc ↦
      addAttribute (memberText sexName (printNumber 4)) raceSource pc

/-- The sum of the two values is 7, and is not returned. -/
theorem sum_is_not_returned : ∃ pc subTree, sexPc = some pc ∧
    pc.attribs.bind (Dictionary.lookup compareKeys sexName) = some subTree ∧
      operation subTree = some .sum ∧ foldParts (· + ·) (parts numberOf subTree) = some 7 ∧
        ¬ Aggregates Locks.lowerStrings (fun _ ↦ none) pc sexName subTree := by
  have hfacts : (sexPc.bind fun pc ↦
      (pc.attribs.bind (Dictionary.lookup compareKeys sexName)).map fun subTree ↦
        (operation subTree, foldParts (· + ·) (parts numberOf subTree))) =
          some (some .sum, some 7) := by
    decide +kernel
  obtain ⟨pc, hpc, hfacts⟩ := Option.bind_eq_some_iff.mp hfacts
  obtain ⟨subTree, hsubTree, hfacts⟩ := Option.map_eq_some_iff.mp hfacts
  obtain ⟨hoperation, hfold⟩ := Prod.mk.inj hfacts
  refine ⟨pc, subTree, hpc, hsubTree, hoperation, hfold, ?_⟩
  rintro ⟨item, hitem, -⟩
  have hne : subTree ≠ .nil := by
    rintro rfl
    cases hfold
  cases (getAttribute_of_unreadable hsubTree hne rfl).symm.trans hitem

end HavokMud.Attributes
