import HavokMud.Commands.Arguments
import HavokMud.Keywords.Splitting
import HavokMud.Mysql.Schema

/-!
# Ordinals

A name such as `2.sword` means the second object with the keyword.  `get_number` splits the ordinal
off, and `GetObjectInList` counts the objects that match what is left.
-/

namespace HavokMud.Keywords

open Commands (Memory findDelim stringAt)
open Mysql (leadingNumber strtol)
open Mysql.Sql.Mode (isDigit)

/-! ## The functions -/

/-- What a look-up reads of an object: its keywords, and whether it is visible to the character. -/
structure Candidate where
  keywords : KeywordList
  visible : Bool

/-- The bits of `steps`. -/
structure Steps where
  fullMatch : Bool
  partialMatch : Bool

/-- The object counts for the look-up.  The marks that `KeywordsMatch` leaves are not read. -/
def Candidate.counts (key : KeywordList) (visible : Bool) (obj : Candidate) : Bool :=
  (!visible || obj.visible) && (keywordsMatch (some key) (some obj.keywords)).1

/-- The text is an ordinal, a dot and a word behind it. -/
def Prefixed (text number word : Text) : Prop :=
  text = number ++ 46 :: word ∧ 46 ∉ number ∧ word ≠ []

variable {text number word : Text} {strings : Strings}

/-- The text as it stands in the memory. -/
theorem Prefixed.memory_eq (h : Prefixed text number word) (pre tail : List UInt8) :
    pre ++ (text ++ 0 :: tail) = pre ++ (number ++ 46 :: (word ++ 0 :: tail)) := by
  rw [h.1, List.append_assoc, List.cons_append]

end HavokMud.Keywords
