import Mathlib.Data.Nat.Digits.Defs
import Mathlib.Data.List.TakeWhile
import Mathlib.Data.UInt

/-!
# cJSON

The values of `cJSON.c`, how `cJSON_Print` writes them and how `cJSON_Parse` reads a text.  A number
is the `valueint` of a text that is written as a 32-bit integer; other numbers, which are `double`
values, are left out.
-/

namespace HavokMud.Json

abbrev Text :=
  List UInt8

/-- A string of C. -/
abbrev CString :=
  { text : Text // 0 ∉ text }

/-- What a buffer reads as: the bytes before the first NUL. -/
def CString.ofBytes (bytes : Text) : CString :=
  ⟨bytes.takeWhile fun c ↦ c ≠ 0, by
    intro hmem
    simpa using List.mem_takeWhile_imp hmem⟩

theorem CString.ofBytes_val (text : CString) : CString.ofBytes text.val = text := by
  apply Subtype.ext
  apply List.takeWhile_eq_self_iff.mpr
  intro c hc
  have hne : c ≠ 0 := fun heq ↦ text.property (heq ▸ hc)
  simpa using hne

inductive Value
  | null
  | false
  | true
  | number (value : ℤ)
  | string (text : CString)
  | array (items : List Value)
  | object (members : List (CString × Value))

/-- The values of `type`. -/
inductive JsonType
  | false
  | true
  | null
  | number
  | string
  | array
  | object
deriving DecidableEq

namespace Value

def type : Value → JsonType
  | .null => .null
  | .false => .false
  | .true => .true
  | .number _ => .number
  | .string _ => .string
  | .array _ => .array
  | .object _ => .object

/-- `valueint`, which the parser also sets for `true`. -/
def valueint : Value → ℤ
  | .number value => value
  | .true => 1
  | _ => 0

def valuestring : Value → Option CString
  | .string text => some text
  | _ => none

/-- `cJSON_Clone`, which leaves the children out. -/
def clone : Value → Value
  | .array _ => .array []
  | .object _ => .object []
  | value => value

/-- Null, a boolean, a number or a string. -/
def Scalar : Value → Prop
  | .array _ | .object _ => False
  | _ => True

theorem clone_of_scalar {value : Value} (h : value.Scalar) : value.clone = value := by
  cases value <;> first | rfl | exact h.elim

end Value

/-! ## Printing -/

/-- A number as `%d` prints it. -/
def printNumber (value : ℤ) : Text :=
  (if value < 0 then [45] else []) ++
    if value = 0 then [48] else ((Nat.digits 10 value.natAbs).map fun d ↦ 48 + .ofNat d).reverse

/-- What `print_string_ptr` writes for one byte: nothing for the control bytes it has no escape
for. -/
def printByte (c : UInt8) : Text :=
  if 31 < c ∧ c ≠ 34 ∧ c ≠ 92 then [c]
  else if c = 92 then [92, 92]
  else if c = 34 then [92, 34]
  else if c = 8 then [92, 98]
  else if c = 12 then [92, 102]
  else if c = 10 then [92, 110]
  else if c = 13 then [92, 114]
  else if c = 9 then [92, 116]
  else []

/-- `print_string_ptr`. -/
def printString (text : Text) : Text :=
  34 :: (text.flatMap printByte ++ [34])

def tabs (depth : ℕ) : Text :=
  List.replicate depth 9

mutual

/-- `print_value` with `fmt` set. -/
def printValue : Value → ℕ → Text
  | .null, _ => [110, 117, 108, 108]
  | .false, _ => [102, 97, 108, 115, 101]
  | .true, _ => [116, 114, 117, 101]
  | .number value, _ => printNumber value
  | .string text, _ => printString text
  | .array items, depth => 91 :: (printItems items (depth + 1) ++ [93])
  | .object members, depth =>
      123 :: 10 :: (printMembers members (depth + 1) ++ (tabs depth ++ [125]))

/-- The entries of `print_array`. -/
def printItems : List Value → ℕ → Text
  | [], _ => []
  | value :: items, depth =>
      printValue value depth ++
        ((if items.isEmpty then [] else [44, 32]) ++ printItems items depth)

/-- The entries of `print_object`. -/
def printMembers : List (CString × Value) → ℕ → Text
  | [], _ => []
  | (name, value) :: members, depth =>
      tabs depth ++ (printString name ++ 58 :: 9 :: (printValue value depth ++
        ((if members.isEmpty then [10] else [44, 10]) ++ printMembers members depth)))

end

mutual

/-- An array or object without entries fails to be printed, and what holds it fails with it:
`memalloc` returns NULL for the empty list of its entries. -/
def fails : Value → Bool
  | .array items => items.isEmpty || anyFails items
  | .object members => members.isEmpty || anyMemberFails members
  | _ => false

def anyFails : List Value → Bool
  | [] => false
  | value :: items => fails value || anyFails items

def anyMemberFails : List (CString × Value) → Bool
  | [] => false
  | (_, value) :: members => fails value || anyMemberFails members

end

/-- `cJSON_Print`, which may return NULL. -/
def print (value : Value) : Option Text :=
  if fails value then none else some (printValue value 0)

/-! ## Parsing -/

/-- `skip`.  It does not stop at the NUL, so nothing is returned when only blanks are left. -/
def skip : Text → Option Text
  | [] => none
  | c :: rest => if c ≤ 32 then skip rest else some (c :: rest)

/-- The digits of `parse_number`. -/
def parseDigits (n : ℕ) : Text → ℕ × Text
  | [] => (n, [])
  | c :: rest =>
      if 48 ≤ c ∧ c ≤ 57 then parseDigits (10 * n + (c - 48).toNat) rest else (n, c :: rest)

/-- A leading minus sign. -/
def parseSign : Text → Bool × Text
  | 45 :: rest => (true, rest)
  | text => (false, text)

/-- A leading zero. -/
def skipZero : Text → Text
  | 48 :: rest => rest
  | text => text

/-- The digits of a number, if there are any behind the zero. -/
def parseUnsigned (text : Text) : ℕ × Text :=
  if text.head?.any fun c ↦ 49 ≤ c ∧ c ≤ 57 then parseDigits 0 text else (0, text)

/-- `parse_number`.  Nothing is returned for a fraction, an exponent or a number beyond 32 bits. -/
def parseNumber (text : Text) : Option (Value × Text) :=
  let sign := parseSign text
  let digits := parseUnsigned (skipZero sign.2)
  let value : ℤ := if sign.1 then -digits.1 else digits.1
  if digits.2.head? = some 46 ∨ digits.2.head? = some 101 ∨ digits.2.head? = some 69 then none
  else if -2 ^ 31 ≤ value ∧ value < 2 ^ 31 then some (.number value, digits.2)
  else none

def hexValue (c : UInt8) : Option ℕ :=
  if 48 ≤ c ∧ c ≤ 57 then some (c.toNat - 48)
  else if 97 ≤ c ∧ c ≤ 102 then some (c.toNat - 87)
  else if 65 ≤ c ∧ c ≤ 70 then some (c.toNat - 55)
  else none

/-- The bytes `parse_string` writes for a character of four hexadecimal digits. -/
def utf8 (uc : ℕ) : Text :=
  if uc < 128 then [.ofNat uc]
  else if uc < 2048 then [.ofNat (192 + uc / 64), .ofNat (128 + uc % 64)]
  else [.ofNat (224 + uc / 4096), .ofNat (128 + uc / 64 % 64), .ofNat (128 + uc % 64)]

/-- The byte behind a backslash, other than `u`. -/
def unescape (c : UInt8) : UInt8 :=
  if c = 98 then 8
  else if c = 102 then 12
  else if c = 110 then 10
  else if c = 114 then 13
  else if c = 116 then 9
  else c

/-- The loop of `parse_string`, with the text behind the closing quote.  A control byte ends the
string too.  Nothing is returned where the loop leaves the text, or for a `\u` without its four
digits. -/
def parseBytes : Text → Option (Text × Text)
  | [] => some ([], [])
  | c :: rest =>
      if c = 34 then some ([], rest)
      else if c ≤ 31 then some ([], c :: rest)
      else if c ≠ 92 then (parseBytes rest).map fun p ↦ (c :: p.1, p.2)
      else
        match rest with
        | [] => none
        | d :: rest =>
            if d ≠ 117 then (parseBytes rest).map fun p ↦ (unescape d :: p.1, p.2)
            else
              match rest with
              | h₁ :: h₂ :: h₃ :: h₄ :: rest =>
                  match hexValue h₁, hexValue h₂, hexValue h₃, hexValue h₄ with
                  | some d₁, some d₂, some d₃, some d₄ => (parseBytes rest).map fun p ↦
                      (utf8 (4096 * d₁ + 256 * d₂ + 16 * d₃ + d₄) ++ p.1, p.2)
                  | _, _, _, _ => none
              | _ => none

/-- `parse_string`. -/
def parseString : Text → Option (CString × Text)
  | 34 :: rest => (parseBytes rest).map fun p ↦ (.ofBytes p.1, p.2)
  | _ => none

mutual

/-- `parse_value`, with a bound on the recursion. -/
def parseValue : ℕ → Text → Option (Value × Text)
  | 0, _ => none
  | fuel + 1, text =>
      if text.take 4 = [110, 117, 108, 108] then some (.null, text.drop 4)
      else if text.take 5 = [102, 97, 108, 115, 101] then some (.false, text.drop 5)
      else if text.take 4 = [116, 114, 117, 101] then some (.true, text.drop 4)
      else
        match text with
        | [] => none
        | c :: rest =>
            if c = 34 then (parseString (c :: rest)).map fun p ↦ (.string p.1, p.2)
            else if c = 45 ∨ 48 ≤ c ∧ c ≤ 57 then parseNumber (c :: rest)
            else if c = 91 then
              (skip rest).bind fun text ↦
                if text.head? = some 93 then some (.array [], text.tail)
                else (parseItems fuel text).map fun p ↦ (.array p.1, p.2)
            else if c = 123 then
              (skip rest).bind fun text ↦
                if text.head? = some 125 then some (.object [], text.tail)
                else (parseMembers fuel text).map fun p ↦ (.object p.1, p.2)
            else none

/-- The loop of `parse_array`. -/
def parseItems : ℕ → Text → Option (List Value × Text)
  | 0, _ => none
  | fuel + 1, text =>
      (skip text).bind fun text ↦ (parseValue fuel text).bind fun p ↦ (skip p.2).bind fun text ↦
        match text with
        | 44 :: rest => (parseItems fuel rest).map fun q ↦ (p.1 :: q.1, q.2)
        | 93 :: rest => some ([p.1], rest)
        | _ => none

/-- The loop of `parse_object`. -/
def parseMembers : ℕ → Text → Option (List (CString × Value) × Text)
  | 0, _ => none
  | fuel + 1, text =>
      (skip text).bind fun text ↦ (parseString text).bind fun name ↦ (skip name.2).bind fun text ↦
        match text with
        | 58 :: rest =>
            (skip rest).bind fun text ↦ (parseValue fuel text).bind fun p ↦
              (skip p.2).bind fun text ↦
                match text with
                | 44 :: rest => (parseMembers fuel rest).map fun q ↦ ((name.1, p.1) :: q.1, q.2)
                | 125 :: rest => some ([(name.1, p.1)], rest)
                | _ => none
        | _ => none

end

/-- `cJSON_Parse`. -/
def parse (text : Text) : Option Value :=
  (skip text).bind fun rest ↦ (parseValue (text.length + 1) rest).map Prod.fst

end HavokMud.Json
