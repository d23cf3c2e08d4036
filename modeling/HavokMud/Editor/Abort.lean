import HavokMud.Editor.Input
import Mathlib.Algebra.Group.Int.Defs

/-!
# Leaving the editor

`EditorStart` sends the lines of a player to the editor, and `/w` and `/q` send them back to where
they went before.  The string is edited in place, so that `/q` leaves it as it is then.
-/

namespace HavokMud.Editor

open Interaction

variable {Q : Type}

/-- A player and the queue that handles his lines. -/
structure Player (Q : Type) where
  session : Session
  handlingQ : Q
  editOldHandlingQ : Q

/-- `EditorStart`.  The maximum length is an `int` and is compared with a `size_t`. -/
def Player.start (inputEditorQ : Q) (p : Player Q) (string : Option Buffer) (maxlen : ℤ) :
    Player Q where
  session := editorStart string (maxlen % 2 ^ 64).toNat
  handlingQ := inputEditorQ
  editOldHandlingQ := p.handlingQ

/-- The line is a command or empty. -/
def Inert (line : Line) : Prop :=
  (command? line.val).isSome = true ∨ line.val = []

instance : DecidablePred Inert :=
  fun line ↦ inferInstanceAs (Decidable ((command? line.val).isSome = true ∨ line.val = []))

/-- What lines add to a text: themselves, each with its end, and the end only of a line for which
there is no room. -/
def spelled (m : ℕ) : Text → List Line → Text
  | text, [] => text
  | text, line :: lines =>
      if Inert line then spelled m text lines
      else if line.val.length + text.length ≤ m then spelled m (text ++ line.val ++ crlf) lines
      else spelled m (text ++ crlf) lines

/-- The text that the editor leaves.  An empty string is freed. -/
def settled : Option Text → Option Text
  | none => none
  | some text => if text = [] then none else some text

section Lines

variable {shared : Bool} {s : Session} {line : Line} {m : ℕ} {text : Text} {lines rest : List Line}

theorem spelled_cons :
    spelled m text (line :: lines) = spelled m (spelled m text [line]) lines := by
  simp only [spelled]
  split_ifs <;> rfl

end Lines

/-! ## Runs -/

section Runs

variable {shared : Bool} {lines : List Line} {quit : Line}

end Runs

end HavokMud.Editor
