import HavokMud.Interaction.Guards
import Mathlib.Data.List.Basic

/-!
# The editor

`AddEditorInput` obeys a line that is a command and appends any other to the string that is edited.
The string is meant to be the accepted lines since it was last cleared.
-/

namespace HavokMud.Editor

open Interaction

/-- A text without its NUL. -/
abbrev Text :=
  List UInt8

/-- A line of input, a string of C. -/
abbrev Line :=
  { text : Text // 0 ∉ text }

/-- A carriage return and a newline. -/
def crlf : Text :=
  [13, 10]

/-- The commands, which begin with a slash. -/
inductive Command
  | quit
  | write
  | clear
  | print
  | help
deriving DecidableEq

/-- The switch over `line[1]`.  Other lines with a slash are text. -/
def command? (line : Text) : Option Command :=
  if line.take 2 = [47, 113] then some .quit
  else if line.take 2 = [47, 119] then some .write
  else if line.take 2 = [47, 99] then some .clear
  else if line.take 2 = [47, 112] then some .print
  else if line.take 2 = [47, 63] then some .help
  else none

/-- What `AddEditorInput` sends to the player. -/
inductive Message
  | cleared
  | alreadyEmpty
  | contents (text : Text)
  | currentlyEmpty
  | help
  | truncated
  | ignored

/-- An allocated string with the size of its memory. -/
structure Buffer where
  text : Text
  size : ℕ

/-- A player in the editor.  `editing` says that `editString` is set and the lines of the player go
to `InputEditorQ`, and `undefined` that the C library was handed memory it does not know. -/
structure Session where
  editString : Option Buffer
  editStringLen : ℕ
  editing : Bool
  undefined : Bool

/-- `EditorStart`. -/
def editorStart (string : Option Buffer) (maxlen : ℕ) : Session :=
  ⟨string, maxlen, true, false⟩

section Library

-- whether `free` and `realloc` of the C library take the memory of `memalloc`
variable (shared : Bool)

/-- A call of `free` or `realloc`. -/
def Session.callLibrary (s : Session) : Session :=
  { s with undefined := s.undefined || !shared }

/-- `free`, with the pointer set to NULL. -/
def Session.free (s : Session) : Session :=
  { s.callLibrary shared with editString := none }

/-- The switch of `AddEditorInput`. -/
def Session.obey (s : Session) : Option Command → Session × List Message
  | some .clear =>
      match s.editString with
      | some _ => (s.free shared, [.cleared])
      | none => (s, [.alreadyEmpty])
  | some .print =>
      match s.editString with
      | some string =>
          (s, if string.text = [] then [.currentlyEmpty] else [.contents string.text])
      | none => (s, [.currentlyEmpty])
  | some .help => (s, [.help])
  | some .quit | some .write | none => (s, [])

/-- A line goes to the string, with what is left of the line. -/
def Session.append (s : Session) (line : Text) : Session × Text × List Message :=
  match s.editString with
  | none =>
      let kept := if s.editStringLen < line.length then line.take s.editStringLen else line
      ({ s with editString := some ⟨kept, kept.length + 3⟩ }, kept,
        if s.editStringLen < line.length then [.truncated] else [])
  | some string =>
      if s.editStringLen < line.length + string.text.length then (s, line, [.ignored])
      else
        ({ s.callLibrary shared with
            editString := some ⟨string.text ++ line, string.text.length + line.length + 3⟩ },
          line, [])

/-- The end of `AddEditorInput`.  `strcat` does not look at the size of the memory. -/
def Session.finish (s : Session) (terminator : Bool) (line : Text) : Session :=
  if terminator then
    match s.editString with
    | some string =>
        if string.text = [] then { s.free shared with editing := false }
        else { s with editing := false }
    | none => { s with editing := false }
  else if line ≠ [] then
    { s with editString := s.editString.map fun string ↦
        { string with text := string.text ++ crlf } }
  else s

/-- `AddEditorInput`.  A command blanks out its line. -/
def addEditorInput (s : Session) (line : Text) : Session × List Message :=
  let obeyed := s.obey shared (command? line)
  let line' := if (command? line).isSome then [] else line
  let appended := obeyed.1.append shared line'
  let terminator := decide (command? line = some .quit ∨ command? line = some .write)
  (appended.1.finish shared terminator appended.2.1, obeyed.2 ++ appended.2.2)

end Library

/-! ## What the string is meant to be -/

/-- The accepted lines, each with its end. -/
def contents (accepted : List Text) : Text :=
  accepted.flatMap fun line ↦ line ++ crlf

/-- The accepted lines after one more line. -/
def accept (m : ℕ) (accepted : List Text) (line : Line) : List Text :=
  match command? line.val with
  | some .clear => []
  | some _ => accepted
  | none =>
      if accepted = [] then [line.val.take m]
      else if line.val.length + (contents accepted).length ≤ m then accepted ++ [line.val]
      else accepted

/-- The accepted lines since the string was last cleared. -/
def acceptedLines (m : ℕ) (lines : List Line) : List Text :=
  lines.foldl (accept m) []

/-- The string, where NULL is empty. -/
def Session.text (s : Session) : Text :=
  (s.editString.map Buffer.text).getD []

/-- The string is what it is meant to be after some lines, and fits its memory. -/
structure Meets (m : ℕ) (lines : List Line) (s : Session) : Prop where
  text : s.text = contents (acceptedLines m lines)
  bounded : s.text.length ≤ m + 2
  fits : ∀ string, s.editString = some string → string.text.length < string.size
  defined : s.undefined = false

/-- Whether a line comes to `free` or `realloc`. -/
def CallsLibrary (s : Session) (line : Text) : Prop :=
  match s.editString, command? line with
  | none, some .quit | none, some .write => True
  | none, _ => False
  | some _, some .clear => True
  | some string, some _ => string.text.length ≤ s.editStringLen
  | some string, none => line.length + string.text.length ≤ s.editStringLen

/-- A line of text that is not empty finds room or no string at all, and an empty one finds a
string without room.  Where `free` and `realloc` do not take the memory, the line does not come to
them. -/
def Guard (shared : Bool) (s : Session) (line : Line) : Prop :=
  (command? line.val = none → line.val ≠ [] → ∀ string, s.editString = some string →
      line.val.length + string.text.length ≤ s.editStringLen) ∧
    (line.val = [] → ∃ string, s.editString = some string ∧
      s.editStringLen < string.text.length) ∧
    (shared = false → ¬ CallsLibrary s line.val)

/-! ## One line -/

section Steps

variable {shared : Bool} {s : Session} {m : ℕ} {line : Text}

theorem take_eq_kept (m : ℕ) (line : Text) :
    (if m < line.length then line.take m else line) = line.take m := by
  split_ifs with hlong
  · rfl
  · rw [List.take_of_length_le (not_lt.mp hlong)]

theorem append_none (hstring : s.editString = none) (line : Text) :
    s.append shared line =
      ({ s with editString := some ⟨line.take s.editStringLen,
          (line.take s.editStringLen).length + 3⟩ }, line.take s.editStringLen,
        if s.editStringLen < line.length then [.truncated] else []) := by
  unfold Session.append
  rw [hstring]
  simp only [take_eq_kept]

theorem append_room {string : Buffer} (hstring : s.editString = some string)
    (hroom : line.length + string.text.length ≤ s.editStringLen) :
    s.append shared line =
      ({ s.callLibrary shared with
          editString := some ⟨string.text ++ line, string.text.length + line.length + 3⟩ },
        line, []) := by
  unfold Session.append
  rw [hstring]
  simp only [if_neg (not_lt.mpr hroom)]

theorem append_full {string : Buffer} (hstring : s.editString = some string)
    (hfull : s.editStringLen < line.length + string.text.length) :
    s.append shared line = (s, line, [.ignored]) := by
  unfold Session.append
  rw [hstring]
  simp only [if_pos hfull]

/-- A line that is not a command is appended and ended. -/
theorem addEditorInput_text (hcommand : command? line = none) :
    (addEditorInput shared s line).1 =
      (s.append shared line).1.finish shared false (s.append shared line).2.1 := by
  unfold addEditorInput
  rw [hcommand]
  rfl

theorem finish_of_ne (hne : line ≠ []) :
    s.finish shared false line = { s with editString := s.editString.map fun string ↦
      { string with text := string.text ++ crlf } } := by
  simp [Session.finish, hne]

theorem acceptedLines_concat (m : ℕ) (lines : List Line) (line : Line) :
    acceptedLines m (lines ++ [line]) = accept m (acceptedLines m lines) line := by
  unfold acceptedLines
  rw [List.foldl_append]
  rfl

theorem contents_concat (accepted : List Text) (line : Text) :
    contents (accepted ++ [line]) = contents accepted ++ (line ++ crlf) := by
  unfold contents
  rw [List.flatMap_append, List.flatMap_singleton]

theorem contents_eq_nil {accepted : List Text} : contents accepted = [] ↔ accepted = [] := by
  constructor
  · intro h
    cases accepted with
    | nil => rfl
    | cons line accepted => simp [contents, crlf] at h
  · rintro rfl
    rfl

theorem length_contents_accept_le {m : ℕ} {accepted : List Text}
    (h : (contents accepted).length ≤ m + 2) (line : Line) :
    (contents (accept m accepted line)).length ≤ m + 2 := by
  unfold accept
  split
  · exact Nat.zero_le _
  · exact h
  · split_ifs with hnil hroom
    · simp only [contents, crlf, List.flatMap_cons, List.flatMap_nil, List.append_nil,
        List.length_append, List.length_take, List.length_cons, List.length_nil]
      omega
    · rw [contents_concat]
      simp only [List.length_append, crlf, List.length_cons, List.length_nil]
      omega
    · exact h

theorem length_contents_le (m : ℕ) (lines : List Line) :
    (contents (acceptedLines m lines)).length ≤ m + 2 := by
  induction lines using List.reverseRecOn with
  | nil => exact Nat.zero_le _
  | append_singleton lines line ih =>
      rw [acceptedLines_concat]
      exact length_contents_accept_le ih line

/-! ## When a line does what it is meant to do -/

theorem Meets.accepted_nil {lines : List Line} (h : Meets m lines s)
    (hstring : s.editString = none) : acceptedLines m lines = [] := by
  rw [← contents_eq_nil, ← h.text, Session.text, hstring]
  rfl

theorem Meets.contents_eq {lines : List Line} (h : Meets m lines s) {string : Buffer}
    (hstring : s.editString = some string) : contents (acceptedLines m lines) = string.text := by
  rw [← h.text, Session.text, hstring]
  rfl

theorem Meets.of_text {lines : List Line} (htext : s.text = contents (acceptedLines m lines))
    (hfits : ∀ string, s.editString = some string → string.text.length < string.size)
    (hdefined : s.undefined = false) : Meets m lines s :=
  ⟨htext, htext ▸ length_contents_le m lines, hfits, hdefined⟩

/-- A line of text is stored with its end, unless there is no room. -/
theorem Meets.text_iff {lines : List Line} (h : Meets m lines s) (hlen : s.editStringLen = m)
    (hm : 0 < m) {line : Line} (hcommand : command? line.val = none) (hline : line.val ≠ []) :
    Meets m (lines ++ [line]) (addEditorInput shared s line.val).1 ↔ Guard shared s line := by
  have haccept : acceptedLines m (lines ++ [line]) =
      if acceptedLines m lines = [] then [line.val.take m]
      else if line.val.length + (contents (acceptedLines m lines)).length ≤ m then
        acceptedLines m lines ++ [line.val]
      else acceptedLines m lines := by
    rw [acceptedLines_concat, accept, hcommand]
  have htake : line.val.take m ≠ [] := by
    simp [List.take_eq_nil_iff, hline, hm.ne']
  rw [addEditorInput_text hcommand]
  cases hstring : s.editString with
  | none =>
      have hguard : Guard shared s line := by
        refine ⟨?_, fun hnil ↦ absurd hnil hline, ?_⟩
        · intro _ _ string hsome
          rw [hstring] at hsome
          cases hsome
        · intro _ hcalls
          simp [CallsLibrary, hstring, hcommand] at hcalls
      apply iff_of_true _ hguard
      rw [append_none hstring, hlen, finish_of_ne htake]
      refine .of_text ?_ ?_ h.defined
      · rw [haccept, if_pos (h.accepted_nil hstring)]
        simp [Session.text, contents]
      · rintro string ⟨⟩
        simp [crlf]
  | some string =>
      have hcontents := h.contents_eq hstring
      rcases Nat.lt_or_ge m (line.val.length + string.text.length) with hfull | hroom
      · have hguard : ¬ Guard shared s line := by
          rintro ⟨hfits, -, -⟩
          have hle := hfits hcommand hline string hstring
          omega
        apply iff_of_false _ hguard
        intro hmeets
        have htext := hmeets.text
        rw [haccept, append_full hstring (by omega), finish_of_ne hline, Session.text, hstring]
          at htext
        -- the end of the line is stored without the line
        have hlength := congrArg List.length htext
        split_ifs at hlength with hnil hshort
        · rw [hnil] at hcontents
          have hpos := List.length_pos_of_ne_nil htake
          simp only [← hcontents, contents, Option.map_some, Option.getD_some, List.flatMap_nil,
            List.flatMap_cons, List.nil_append, List.append_nil, List.length_append] at hlength
          omega
        · rw [hcontents] at hshort
          omega
        · rw [hcontents] at hlength
          simp [crlf] at hlength
      · rw [append_room hstring (by omega), finish_of_ne hline]
        have hguard : Guard shared s line ↔ shared = true := by
          unfold Guard CallsLibrary
          simp [hstring, hcommand, hline, hlen, hroom]
        rw [hguard]
        constructor
        · intro hmeets
          have hdefined := hmeets.defined
          simpa [Session.callLibrary, h.defined] using hdefined
        · intro hshared
          refine .of_text ?_ ?_ (by simp [Session.callLibrary, h.defined, hshared])
          · rw [haccept, hcontents]
            split_ifs with hnil
            · rw [hnil] at hcontents
              have hshort : line.val.length ≤ m := by omega
              simp [Session.text, ← hcontents, contents, List.take_of_length_le hshort]
            · rw [contents_concat, hcontents]
              simp [Session.text]
          · rintro string' ⟨⟩
            simp [crlf]
            omega

end Steps

/-! ## Runs -/

end HavokMud.Editor
