import HavokMud.BTree.PartialKeys
import HavokMud.Login.Email
import HavokMud.Sequence.Buffers

/-!
# Names of characters

`parseName` copies its argument to a buffer and checks each character after it has copied it.
`checkAssName` rejects a name that is too long, or that the table of banned users rejects.
-/

namespace HavokMud.Login

open BTree Sequence
open Mysql (Text)

/-! ## The functions -/

/-- `MAX_NAME_LENGTH`. -/
def maxNameLength : ℕ := 20

/-- The loop of `parseName`, over the argument with its NUL.  A `char` from 128 on is negative. -/
def nameLoop : Text → ℕ → List UInt8 → Option (List UInt8 × Bool)
  | [], _, _ => none
  | c :: arg, i, name => do
      let name ← store name i c
      if c = 0 then some (name, i ≠ 0)
      else if 128 ≤ c ∨ isLetter c = false ∨ maxNameLength < i then some (name, false)
      else nameLoop arg (i + 1) name

/-- `parseName`: the buffer for the name, and whether the name is valid. -/
def parseName (arg : Option Text) (name : List UInt8) : Option (List UInt8 × Bool) :=
  match skipSpaces arg with
  | none => some (name, false)
  | some arg => nameLoop (arg ++ [0]) 0 name

/-- `struct banned_user`. -/
structure BannedUser where
  how : ℤ
  name : Text
  /-- As a `size_t`. -/
  len : ℕ

/-- The name is rejected for this entry of the table. -/
def BannedUser.rejects (user : BannedUser) (name : Text) : Bool :=
  match user.how with
  | 0 => strcasecmp name user.name = 0
  | 1 => strncasecmp name user.name user.len = 0
  | 2 => user.len ≤ name.length ∧
      strcasecmp (name.drop (name.length - user.len)) user.name = 0
  | 3 => user.len ≤ name.length ∧ (List.range (name.length - user.len + 1)).any fun j ↦
      strncasecmp (name.drop j) user.name user.len = 0
  | _ => true

/-- `checkAssName`, whose table may be NULL. -/
def checkAssName (bannedUsers : Option (List BannedUser)) (name : Text) : Bool :=
  if maxNameLength < name.length then true
  else
    match bannedUsers with
    | none => false
    | some users => users.any fun user ↦ user.rejects name

/-! ## The loop -/

variable {arg letters rest pre old behind : Text} {c : UInt8}

theorem ne_zero_of_isLetter (hc : isLetter c = true) : c ≠ 0 := by
  rintro rfl
  cases hc

theorem lt_of_isLetter (hc : isLetter c = true) : ¬ 128 ≤ c := by
  simp only [isLetter, UInt8.le_iff_toNat_le, UInt8.reduceToNat, decide_eq_true_eq] at hc
  simp only [UInt8.le_iff_toNat_le, UInt8.reduceToNat]
  omega

/-- Letters are copied, up to one more than a name may have. -/
theorem nameLoop_letters (hletters : ∀ c ∈ letters, isLetter c = true) (pre : Text)
    (hold : old.length = letters.length) (hfew : pre.length + letters.length ≤ maxNameLength + 1)
    (rest behind : Text) :
    nameLoop (letters ++ rest) pre.length (pre ++ (old ++ behind)) =
      nameLoop rest (pre ++ letters).length (pre ++ (letters ++ behind)) := by
  induction letters generalizing pre old with
  | nil =>
      obtain rfl := List.eq_nil_of_length_eq_zero hold
      rw [List.append_nil]
      rfl
  | cons c letters ih =>
      obtain ⟨hc, hletters⟩ := List.forall_mem_cons.mp hletters
      cases old with
      | nil => cases hold
      | cons o old =>
          rw [List.length_cons] at hfew
          have hgood : ¬ (128 ≤ c ∨ isLetter c = false ∨ maxNameLength < pre.length) := by
            rw [not_or, not_or, Bool.not_eq_false]
            exact ⟨lt_of_isLetter hc, hc, by omega⟩
          have hnext := ih hletters (pre ++ [c]) (Nat.succ.inj hold)
            (by rw [List.length_append, List.length_singleton]; omega)
          rw [List.cons_append, nameLoop, List.cons_append, store_append, Option.bind_eq_bind,
            Option.bind_some, if_neg (ne_zero_of_isLetter hc), if_neg hgood]
          simpa using hnext

/-- The loop ends at the first character that is no letter. -/
theorem nameLoop_end (hc : isLetter c = false) (pre : Text) (o : UInt8) (behind rest : Text) :
    nameLoop (c :: rest) pre.length (pre ++ o :: behind) =
      some (pre ++ c :: behind, decide (c = 0 ∧ pre ≠ [])) := by
  rw [nameLoop, store_append, Option.bind_eq_bind, Option.bind_some]
  split_ifs with hzero hbad
  · simp [hzero]
  · simp [hzero]
  · exact absurd (.inr (.inl hc)) hbad

/-- The loop does not fail if the buffer has room for the letters and one character more. -/
theorem nameLoop_word (hletters : ∀ c ∈ letters, isLetter c = true) (hc : isLetter c = false)
    (hfew : letters.length ≤ maxNameLength) {name : List UInt8}
    (hroom : letters.length < name.length) (rest : Text) :
    nameLoop (letters ++ c :: rest) 0 name =
      some (letters ++ c :: name.drop (letters.length + 1),
        decide (c = 0 ∧ letters ≠ [])) := by
  have hsplit : name = name.take letters.length ++
      name[letters.length] :: name.drop (letters.length + 1) := by
    rw [List.cons_getElem_drop_succ, List.take_append_drop]
  have hold : (name.take letters.length).length = letters.length :=
    List.length_take_of_le hroom.le
  have hcopied := nameLoop_letters hletters [] hold (by rw [List.length_nil]; omega) (c :: rest)
    (name[letters.length] :: name.drop (letters.length + 1))
  rw [List.nil_append, List.nil_append, List.nil_append, ← hsplit] at hcopied
  exact hcopied.trans (nameLoop_end hc letters _ _ rest)

/-- With more letters than a name may have, a buffer for the longest name is too small. -/
theorem nameLoop_overrun (hletters : ∀ c ∈ letters, isLetter c = true)
    (hmany : maxNameLength < letters.length) (c : UInt8) (rest : Text) {name : List UInt8}
    (hname : name.length = maxNameLength + 1) : nameLoop (letters ++ c :: rest) 0 name = none := by
  let copied := letters.take (maxNameLength + 1)
  have hlength : copied.length = maxNameLength + 1 := List.length_take_of_le hmany
  have hfirst : ∀ c ∈ copied, isLetter c = true := fun c hc ↦
    hletters c (List.mem_of_mem_take hc)
  have hroom : ([] : Text).length + copied.length ≤ maxNameLength + 1 := by
    rw [List.length_nil, hlength, Nat.zero_add]
  have hcopied := nameLoop_letters hfirst [] (hname.trans hlength.symm) hroom
    (letters.drop (maxNameLength + 1) ++ c :: rest) []
  rw [List.nil_append, List.nil_append, List.append_nil, List.append_nil, ← List.append_assoc,
    List.take_append_drop] at hcopied
  obtain ⟨d, behind, hbehind⟩ :=
    List.exists_cons_of_ne_nil (l := letters.drop (maxNameLength + 1) ++ c :: rest) (by simp)
  have hfull : store copied copied.length d = none := if_neg (Nat.lt_irrefl _)
  calc
    nameLoop (letters ++ c :: rest) 0 name = nameLoop (d :: behind) copied.length copied := by
      rw [← hbehind]
      exact hcopied
    _ = none := by rw [nameLoop, hfull]; rfl

/-! ## Names -/

/-- What a name should be: letters, not too many of them. -/
def IsName (word : Text) : Prop :=
  word ≠ [] ∧ word.length ≤ maxNameLength ∧ ∀ c ∈ word, isLetter c = true

instance (word : Text) : Decidable (IsName word) :=
  inferInstanceAs (Decidable (_ ∧ _ ∧ _))

/-- `parseName` accepts and stores names, and nothing else, in a buffer that need not have more room
than the longest name, and whose other bytes it leaves alone.  An accepted name is only rejected by
`checkAssName` for what is in the table. -/
def ParsesNames (arg : Text) : Prop :=
  ∀ name : List UInt8, maxNameLength + 1 ≤ name.length →
    ∃ name' ok, parseName (some arg) name = some (name', ok) ∧ name'.length = name.length ∧
      name'.drop (maxNameLength + 1) = name.drop (maxNameLength + 1) ∧
      (ok = true ↔ IsName (arg.dropWhile isSpace)) ∧
      (ok = true → ∃ stored, stringOf name' = some stored ∧ stored = arg.dropWhile isSpace ∧
        ∀ bannedUsers, checkAssName bannedUsers stored =
          (bannedUsers.getD []).any fun user ↦ user.rejects stored)

theorem parseName_of_ne_nil (hword : arg.dropWhile isSpace ≠ []) (name : List UInt8) :
    parseName (some arg) name = nameLoop (arg.dropWhile isSpace ++ [0]) 0 name := by
  rw [parseName, skipSpaces, Option.bind_some, if_neg hword]

theorem parseName_of_eq_nil (hword : arg.dropWhile isSpace = []) (name : List UInt8) :
    parseName (some arg) name = some (name, false) := by
  rw [parseName, skipSpaces, Option.bind_some, if_pos hword]

variable {word : Text}

/-- A string with its NUL is the letters that it begins with, and behind them no letter. -/
theorem exists_append_takeWhile (hnul : 0 ∉ word) :
    ∃ c rest, word ++ [0] = word.takeWhile isLetter ++ c :: rest ∧ isLetter c = false ∧
      (c = 0 ↔ word.takeWhile isLetter = word) := by
  have hsplit := List.takeWhile_append_dropWhile (p := isLetter) (l := word)
  cases hrest : word.dropWhile isLetter with
  | nil =>
      rw [hrest, List.append_nil] at hsplit
      exact ⟨0, [], by rw [hsplit], rfl, iff_of_true rfl hsplit⟩
  | cons c rest =>
      rw [hrest] at hsplit
      have hc : isLetter c = false := by
        have hhead := List.head?_dropWhile_not isLetter word
        rwa [hrest] at hhead
      refine ⟨c, rest ++ [0], ?_, hc, iff_of_false ?_ fun hall ↦ ?_⟩
      · conv_lhs => rw [← hsplit]
        rw [List.append_assoc, List.cons_append]
      · rintro rfl
        exact hnul (hsplit ▸ List.mem_append_right _ List.mem_cons_self)
      · have hlengths := congrArg List.length hsplit
        rw [hall, List.length_append, List.length_cons] at hlengths
        omega

theorem takeWhile_eq_of_isName (h : IsName word) : word.takeWhile isLetter = word :=
  List.takeWhile_eq_self_iff.mpr h.2.2

theorem isName_of_takeWhile_eq (hfew : (word.takeWhile isLetter).length ≤ maxNameLength)
    (hall : word.takeWhile isLetter = word) (hne : word.takeWhile isLetter ≠ []) : IsName word :=
  ⟨hall ▸ hne, hall ▸ hfew, List.takeWhile_eq_self_iff.mp hall⟩

/-- No name is too long for the second function. -/
theorem checkAssName_of_isName (h : IsName word) (bannedUsers : Option (List BannedUser)) :
    checkAssName bannedUsers word = (bannedUsers.getD []).any fun user ↦ user.rejects word := by
  rw [checkAssName.eq_def, if_neg (Nat.not_lt.mpr h.2.1)]
  cases bannedUsers <;> rfl

/-- Few enough letters are followed by the character at which the loop ends. -/
theorem parsesNames_of_le (hnul : 0 ∉ arg)
    (hfew : ((arg.dropWhile isSpace).takeWhile isLetter).length ≤ maxNameLength) :
    ParsesNames arg := by
  intro name hroom
  by_cases hword : arg.dropWhile isSpace = []
  · have hnone : ¬ IsName (arg.dropWhile isSpace) := fun h ↦ h.1 hword
    exact ⟨name, false, parseName_of_eq_nil hword name, rfl, rfl,
      iff_of_false Bool.false_ne_true hnone, fun h ↦ nomatch h⟩
  have hnul : 0 ∉ arg.dropWhile isSpace := fun h ↦ hnul ((List.dropWhile_sublist _).mem h)
  obtain ⟨c, rest, hsplit, hc, hzero⟩ := exists_append_takeWhile hnul
  have hok : (c = 0 ∧ (arg.dropWhile isSpace).takeWhile isLetter ≠ []) ↔
      IsName (arg.dropWhile isSpace) := by
    rw [hzero]
    exact ⟨fun ⟨hall, hne⟩ ↦ isName_of_takeWhile_eq hfew hall hne, fun h ↦
      ⟨takeWhile_eq_of_isName h, (takeWhile_eq_of_isName h).symm ▸ h.1⟩⟩
  have hparse := parseName_of_ne_nil hword name
  rw [hsplit, nameLoop_word (fun c hc ↦ List.mem_takeWhile_imp hc) hc hfew (by omega)] at hparse
  refine ⟨_, _, hparse, ?_, ?_, decide_eq_true_iff.trans hok, ?_⟩
  · simp only [List.length_append, List.length_cons, List.length_drop]
    omega
  · obtain ⟨more, hmore⟩ := Nat.exists_eq_add_of_le hfew
    rw [hmore, Nat.add_assoc, List.drop_length_add_append, List.drop_succ_cons, List.drop_drop]
    congr 1
    omega
  · intro hdecide
    obtain ⟨rfl, hne⟩ := of_decide_eq_true hdecide
    have hname := hok.mp ⟨rfl, hne⟩
    refine ⟨_, ?_, rfl, checkAssName_of_isName hname⟩
    rw [hzero.mp rfl]
    exact stringOf_append hnul _

/-- A buffer for the longest name is overrun if the argument has one letter too many. -/
theorem le_of_parsesNames (hnul : 0 ∉ arg) (h : ParsesNames arg) :
    ((arg.dropWhile isSpace).takeWhile isLetter).length ≤ maxNameLength := by
  by_contra hmany
  have hword : arg.dropWhile isSpace ≠ [] := by
    intro hnil
    rw [hnil] at hmany
    exact hmany (Nat.zero_le _)
  have hnul : 0 ∉ arg.dropWhile isSpace := fun h ↦ hnul ((List.dropWhile_sublist _).mem h)
  obtain ⟨c, rest, hsplit, -⟩ := exists_append_takeWhile hnul
  have hlength : (List.replicate (maxNameLength + 1) (0 : UInt8)).length = maxNameLength + 1 :=
    List.length_replicate
  obtain ⟨name', ok, hparse, -⟩ := h _ hlength.ge
  rw [parseName_of_ne_nil hword, hsplit, nameLoop_overrun (fun c hc ↦ List.mem_takeWhile_imp hc)
    (Nat.not_le.mp hmany) c rest hlength] at hparse
  cases hparse

/-- Names are parsed as they are checked, unless there are too many letters. -/
theorem parsesNames_iff (hnul : 0 ∉ arg) : ParsesNames arg ↔
    ((arg.dropWhile isSpace).takeWhile isLetter).length ≤ maxNameLength :=
  ⟨le_of_parsesNames hnul, parsesNames_of_le hnul⟩

/-- ` Conan`. -/
theorem parsesNames_conan : ParsesNames [32, 67, 111, 110, 97, 110] :=
  (parsesNames_iff (by decide)).mpr (by decide)

/-- One letter too many is accepted, is then too long, and the NUL is the 22nd byte. -/
theorem parseName_tooLong : let letters : Text := List.replicate 21 97
    parseName (some letters) (List.replicate 22 0) = some (letters ++ [0], true) ∧
      checkAssName none letters = true ∧ parseName (some letters) (List.replicate 21 0) = none ∧
      ¬ ParsesNames letters := by
  have hoverrun : parseName (some (List.replicate 21 97)) (List.replicate 21 0) = none := by decide
  refine ⟨by decide, by decide, hoverrun, fun h ↦ ?_⟩
  obtain ⟨name', ok, hparse, -⟩ := h (List.replicate 21 0) (by decide)
  rw [hoverrun] at hparse
  cases hparse

end HavokMud.Login
