import HavokMud.Keywords.Matching
import HavokMud.Sequence.Runs
import Mathlib.Data.Int.Basic

/-!
# Splitting and joining keywords

`StringToKeywords` splits a string at delimiters into interned words, and `KeywordsToString` joins
the words again.  A word that ends at a delimiter is taken with the delimiter.
-/

namespace HavokMud.Keywords

open BTree Objects Sequence

/-! ## The strings -/

/-- A text without its NUL. -/
abbrev Text :=
  List UInt8

/-- The strings that are interned, no two of which are equal but for the case. -/
structure Strings where
  texts : List Word
  distinct : (texts.map fun text ↦ fold text.1).Nodup

/-- The sum of `int` values, where the behaviour is defined. -/
def checkedInt (n : ℤ) : Option ℤ :=
  if -2 ^ 31 ≤ n ∧ n < 2 ^ 31 then some n else none

/-- A `ptrdiff_t` or `size_t` as an `int`. -/
def toInt (n : ℤ) : ℤ :=
  Int.bmod n (2 ^ 32)

/-- What a buffer reads as. -/
def wordOf (bytes : Text) : Word :=
  ⟨bytes.takeWhile fun c ↦ c ≠ 0, by
    intro hmem
    simpa using List.mem_takeWhile_imp hmem⟩

/-- `strpbrk`, as a distance. -/
def strpbrk (accept : List UInt8) : Text → Option ℕ
  | [] => none
  | c :: string => if c ∈ accept then some 0 else (strpbrk accept string).map (· + 1)

/-- `memstrlink` as far as it matters to the caller: the string that is interned in some case, or
the string itself. -/
def Strings.memstrlink (strings : Strings) (orig : Word) : Word :=
  (strings.texts.find? fun text ↦ fold text.1 = fold orig.1).getD orig

/-- `memstrnlink`.  Freeing its copy takes its own link back, so that the strings stay as they
are.  A negative length is taken for a great one. -/
def Strings.memstrnlink (strings : Strings) (orig : Text) (len : ℤ) : Option (Option Word) := do
  if len = 0 then some none
  else
    let _size ← checkedInt (len + 1)
    if len < 0 then none
    else some (some (strings.memstrlink (wordOf (orig.take len.toNat))))

/-! ## The functions of the repository -/

/-- `"- \t\n\r,"`. -/
def delimiters : List UInt8 :=
  [45, 32, 9, 10, 13, 44]

/-- A `Keywords_t` filled with zeros. -/
def KeywordList.zero : KeywordList :=
  ⟨[], [], none, false, false, rfl⟩

/-- One more word at the end. -/
def KeywordList.push (key : KeywordList) (word : Option Word) (len : ℤ) : KeywordList where
  words := key.words ++ [word]
  length := key.length ++ [Int32.ofInt len]
  found := none
  exact := key.exact
  partialMatch := key.partialMatch
  sized := by
    rw [List.length_append, List.length_append, key.sized]
    rfl

def KeywordList.setExact (key : KeywordList) (exact : Bool) : KeywordList :=
  { key with exact := exact }

/-- What the loop does with a word that the string ends with. -/
def lastWord (strings : Strings) (string : Text) (key : KeywordList) :
    Option (KeywordList × Text) := do
  let len := toInt string.length
  if len ≤ 0 then none
  else
    let last ← string[(len - 1).toNat]?
    if last = 46 then
      let string := string.take (len - 1).toNat
      let word ← strings.memstrnlink string (len - 1)
      some ((key.push word (len - 1)).setExact true, string)
    else
      let word ← strings.memstrnlink string len
      some ((key.push word len).setExact false, string)

/-- The loop of `StringToKeywords`, with the string as it leaves it.  It makes at most as many turns
as there are bytes. -/
def splitLoop (strings : Strings) : ℕ → Text → KeywordList → Option (KeywordList × Text)
  | _, [], key => some (key, [])
  | 0, _ :: _, _ => none
  | turns + 1, string, key =>
      match strpbrk delimiters string with
      | some 0 => do
          let (key, rest) ← splitLoop strings turns (string.drop 1) key
          some (key, string.take 1 ++ rest)
      | some n => do
          let len := toInt (n + 1)
          let word ← strings.memstrnlink string len
          let (key, rest) ← splitLoop strings turns (string.drop (n + 1)) (key.push word len)
          some (key, string.take (n + 1) ++ rest)
      | none => lastWord strings string key

/-- `strcat` into memory of some size. -/
def strcat (size : ℕ) (string text : Word) : Option Word :=
  if string.1.length + text.1.length < size then
    some ⟨string.1 ++ text.1, by simpa using ⟨string.2, text.2⟩⟩
  else none

/-- The words of a list are NUL-terminated texts, and the lengths are theirs. -/
def KeywordList.Spells (key : KeywordList) (words : List Text) : Prop :=
  key.words.map (Option.map Subtype.val) = words.map some ∧
    key.length.map Int32.toInt = words.map fun word ↦ (word.length : ℤ)

/-- No interned string differs from the text in case only. -/
def Strings.NoVariant (strings : Strings) (text : Text) : Prop :=
  ∀ string ∈ strings.texts, fold string.1 = fold text → string.1 = text

section Functions

variable {strings : Strings} {string gap word tail text : Text} {key key' : KeywordList} {c : UInt8}
  {turns : ℕ} {rest : Text}

theorem wordOf_eq (hnul : 0 ∉ text) : wordOf text = ⟨text, hnul⟩ := by
  apply Subtype.ext
  apply List.takeWhile_eq_self_iff.mpr
  intro c hc
  have hne : c ≠ 0 := fun heq ↦ hnul (heq ▸ hc)
  simpa using hne

theorem fold_memstrlink (strings : Strings) (orig : Word) :
    fold (strings.memstrlink orig).1 = fold orig.1 := by
  unfold Strings.memstrlink
  cases hfind : strings.texts.find? fun text ↦ fold text.1 = fold orig.1 with
  | none => rfl
  | some text => simpa using List.find?_some hfind

theorem length_memstrlink (strings : Strings) (orig : Word) :
    (strings.memstrlink orig).1.length = orig.1.length := by
  have hlength := congrArg List.length (fold_memstrlink strings orig)
  simpa [fold] using hlength

/-- The string itself comes back unless another spelling of it is interned. -/
theorem memstrlink_eq_iff (strings : Strings) (orig : Word) :
    strings.memstrlink orig = orig ↔ strings.NoVariant orig.1 := by
  unfold Strings.memstrlink
  cases hfind : strings.texts.find? fun text ↦ fold text.1 = fold orig.1 with
  | none =>
      refine iff_of_true rfl ?_
      intro text htext hfold
      exact absurd hfold (by simpa using List.find?_eq_none.mp hfind text htext)
  | some text =>
      have hmem := List.mem_of_find?_eq_some hfind
      have hfold : fold text.1 = fold orig.1 := by simpa using List.find?_some hfind
      rw [Option.getD_some]
      constructor
      · rintro rfl other hother hsame
        exact congrArg Subtype.val (List.inj_on_of_nodup_map strings.distinct hother hmem hsame)
      · intro hno
        exact Subtype.ext (hno text hmem hfold)

end Functions

end HavokMud.Keywords
