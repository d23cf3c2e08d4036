import HavokMud.Colors.Codes

/-!
# Colour expansion

`ParseAnsiColors` copies a text and replaces its colour codes, `$c` or `$$c` in any case and four
characters, by ANSI sequences, or leaves them out.
-/

namespace HavokMud.Colors

open Sequence

/-! ## The function of the repository -/

/-- `MAX_STRING_LENGTH`. -/
def maxStringLength : ℕ :=
  40960

/-- `toupper` of the C locale. -/
def toUpper (c : UInt8) : UInt8 :=
  if 97 ≤ c ∧ c ≤ 122 then c - 32 else c

/-- The variables of `ParseAnsiColors`.  The text that it reads ends with its NUL, and `ansibuf` is
not initialised. -/
structure Variables where
  txt : Text
  buf : Text
  ansibuf : Text
  i : ℕ
  j : ℕ
  found : ℕ

/-- Whether a colour code begins at an index. -/
def isCode (txt : Text) (i : ℕ) : Option Bool := do
  let c ← txt[i]?
  if c ≠ 36 then some false
  else
    let c ← txt[i + 1]?
    if toUpper c = 67 then some true
    else if c ≠ 36 then some false
    else
      let c ← txt[i + 2]?
      some (toUpper c = 67)

/-- A code is expanded when the user wants ANSI. -/
def expandCode (usingAnsi : Bool) (v : Variables) : Option Variables :=
  if usingAnsi then do
    let (len, ansibuf, txt) ← ansiParse v.txt v.i v.ansibuf
    let text ← stringOf ansibuf
    let buf ← strcat v.buf text
    some ⟨txt, buf, ansibuf, v.i, v.j + len, v.found + 1⟩
  else some v

/-- A turn of the loop at a code. -/
def codeTurn (usingAnsi : Bool) (v : Variables) : Option Variables := do
  let second ← v.txt[v.i + 1]?
  let v := { v with i := v.i + if second = 36 then 3 else 2 }
  let v ← expandCode usingAnsi v
  some { v with i := v.i + 3 + 1 }

/-- A turn of the loop at another character. -/
def plainTurn (v : Variables) (c : UInt8) : Option Variables := do
  let buf ← push v.buf v.j c
  some { v with buf := buf, j := v.j + 1, i := v.i + 1 }

/-- The body of the loop, at the character `c`. -/
def turn (usingAnsi : Bool) (v : Variables) (c : UInt8) : Option Variables := do
  let code ← isCode v.txt v.i
  if code then codeTurn usingAnsi v else plainTurn v c

/-- The loop of `ParseAnsiColors`. -/
def parseLoop (usingAnsi : Bool) : ℕ → Variables → Option Variables
  | 0, _ => none
  | turns + 1, v => do
      let c ← v.txt[v.i]?
      if c = 0 ∨ maxStringLength ≤ v.j then some v
      else
        let v ← turn usingAnsi v c
        parseLoop usingAnsi turns v

/-- `"0007"`. -/
def resetCode : Text :=
  [48, 48, 48, 55, 0]

/-- What follows the loop: back to light gray. -/
def resetColor (v : Variables) : Option Text := do
  if v.found = 0 then some v.buf
  else
    let (_, ansibuf, _) ← ansiParse resetCode 0 v.ansibuf
    let text ← stringOf ansibuf
    strcat v.buf text

/-- `ParseAnsiColors`, with the length it returns, the buffer and the text.  Every turn reads on in
the text. -/
def parseAnsiColors (usingAnsi : Bool) (txt buf ansibuf : Text) : Option (ℕ × Text × Text) := do
  let buf ← store buf 0 0
  let v ← parseLoop usingAnsi (txt.length + 1) ⟨txt, buf, ansibuf, 0, 0, 0⟩
  let buf ← resetColor v
  let len ← strlen buf
  some (len, buf, v.txt)

/-! ## What a text is made of -/

/-- The number of characters of the `$c` or `$$c` that the text begins with. -/
def marker : Text → ℕ
  | 36 :: c :: text =>
      if toUpper c = 67 then 2
      else if c = 36 ∧ text.head?.any (fun d ↦ toUpper d = 67) then 3
      else 0
  | _ => 0

/-- A part of a text: a character, or a code with what follows its mark. -/
inductive Part where
  | plain (c : UInt8)
  | code (mark four : Text)
deriving DecidableEq

/-- The parts of a text from left to right.  The number says how many characters belong to the part
before. -/
def parts : ℕ → Text → List Part
  | _, [] => []
  | skip + 1, _ :: text => parts skip text
  | 0, c :: text =>
      if marker (c :: text) = 0 then .plain c :: parts 0 text
      else .code ((c :: text).take (marker (c :: text)))
          (((c :: text).drop (marker (c :: text))).take 4) ::
        parts (marker (c :: text) + 3) text

/-- Every code is followed by four characters. -/
def Complete (text : Text) : Prop :=
  ∀ mark four, Part.code mark four ∈ parts 0 text → four.length = 4

/-- What is read of a part. -/
def Part.source : Part → Text
  | .plain c => [c]
  | .code mark four => mark ++ four

/-- The ANSI sequence of the four characters of a code. -/
def sequenceOf : Text → Text
  | [mod, bg, kind, last] => ansiSequence mod bg kind last
  | _ => []

/-- What a part is expanded to, with ANSI or without. -/
def Part.expand (usingAnsi : Bool) : Part → Text
  | .plain c => [c]
  | .code _ four => if usingAnsi then sequenceOf four else []

def Part.isCode : Part → Bool
  | .plain _ => false
  | .code _ _ => true

/-- The text without its codes. -/
def visible (text : Text) : Text :=
  (parts 0 text).flatMap (Part.expand false)

/-- The text with the ANSI sequences of its codes. -/
def colored (text : Text) : Text :=
  (parts 0 text).flatMap (Part.expand true)

/-- The text contains a code. -/
def hasCode (text : Text) : Bool :=
  (parts 0 text).any Part.isCode

/-- The sequence for light gray. -/
def resetSequence : Text :=
  ansiSequence 48 48 48 55

/-- What the text is expanded to. -/
def expansion (usingAnsi : Bool) (text : Text) : Text :=
  if usingAnsi then colored text ++ if hasCode text then resetSequence else [] else visible text

/-! ## Parts -/

section Parts

variable {text : Text} {c : UInt8} {n : ℕ}

theorem marker_cases (text : Text) : marker text = 0 ∨
    (∃ c tail, text = 36 :: c :: tail ∧ toUpper c = 67 ∧ marker text = 2) ∨
    ∃ c tail, text = 36 :: 36 :: c :: tail ∧ toUpper c = 67 ∧ marker text = 3 := by
  unfold marker
  split
  case h_1 c tail =>
    split_ifs with hletter hsecond
    · exact .inr (.inl ⟨c, tail, rfl, hletter, rfl⟩)
    · obtain ⟨rfl, hthird⟩ := hsecond
      cases tail with
      | nil => cases hthird
      | cons d tail => exact .inr (.inr ⟨d, tail, rfl, by simpa using hthird, rfl⟩)
    · exact .inl rfl
  case h_2 => exact .inl rfl

theorem marker_le (text : Text) : marker text ≤ text.length := by
  rcases marker_cases text with h | ⟨c, tail, rfl, -, h⟩ | ⟨c, tail, rfl, -, h⟩ <;> rw [h] <;> simp

theorem parts_skip (skip : ℕ) (text : Text) : parts skip text = parts 0 (text.drop skip) := by
  induction skip generalizing text with
  | zero => rfl
  | succ skip ih =>
      cases text with
      | nil => rfl
      | cons c text => exact ih text

theorem parts_plain (hmarker : marker (c :: text) = 0) :
    parts 0 (c :: text) = .plain c :: parts 0 text := by
  rw [parts, if_pos hmarker]

theorem parts_code (hmarker : marker text ≠ 0) :
    parts 0 text = .code (text.take (marker text)) ((text.drop (marker text)).take 4) ::
      parts 0 (text.drop (marker text + 4)) := by
  cases text with
  | nil => exact absurd rfl hmarker
  | cons c text => rw [parts, if_neg hmarker, parts_skip, List.drop_succ_cons]

/-- The parts make up the text. -/
theorem source_parts (text : Text) : (parts 0 text).flatMap Part.source = text := by
  induction hlength : text.length using Nat.strongRecOn generalizing text with
  | _ n ih =>
      by_cases hmarker : marker text = 0
      · cases text with
        | nil => rfl
        | cons c text =>
            rw [parts_plain hmarker, List.flatMap_cons,
              ih text.length (by simp [← hlength]) text rfl]
            rfl
      · have hle := marker_le text
        have hshort : (text.drop (marker text + 4)).length < n := by
          rw [List.length_drop]
          omega
        rw [parts_code hmarker, List.flatMap_cons, ih _ hshort _ rfl, Part.source,
          List.append_assoc, ← List.drop_drop, List.take_append_drop, List.take_append_drop]

end Parts

end HavokMud.Colors
