import HavokMud.Attributes.StringValues
import HavokMud.Commands.Lookup
import HavokMud.Commands.Separators

/-!
# The command parser

`CommandParser` looks up the first word of a line and calls the function of the command, unless a
check of the character refuses it.  Whatever was typed before, a function is called for a line only
if its word begins the name of the command and all checks are passed.
-/

namespace HavokMud.Commands

open BinaryTree BTree SearchTree Interaction Traced
open Json (CString Text)
open Attributes.Locks (Strings lowerStrings)

/-! ## The source -/

/-- `isalpha` of the C locale. -/
def isAlpha (c : UInt8) : Bool :=
  65 ≤ c ∧ c ≤ 90 ∨ 97 ≤ c ∧ c ≤ 122

/-- The fields of a command that are on no tree. -/
structure Handling (φ : Type) where
  func : Option φ
  minPos : ℤ
  minLevel : ℤ

/-- The fields of a character that the parser reads. -/
structure CharData where
  name : Text
  maxLevel : ℤ
  position : ℤ
  inRoom : ℤ
  gold : ℤ
  npc : Bool
  polyself : Bool
  frozen : Bool
  paralyzed : Bool
  logMe : Bool

/-- `IS_PC`. -/
def CharData.isPc (ch : CharData) : Bool :=
  !ch.npc || ch.polyself

/-- `IS_IMMORTAL`. -/
def CharData.isImmortal (ch : CharData) : Bool :=
  !ch.npc && decide (51 ≤ ch.maxLevel)

/-- What the parser does.  A function gets the memory that its argument points to. -/
inductive Action (φ : Type)
  | sendOutput (text : String)
  | logPrint (room : Option ℤ) (name line : Text)
  | special (number : ℤ) (memory : Memory) (arg : Option ℕ)
  | func (func : φ) (memory : Memory) (arg : Option ℕ) (number : ℤ)

/-- A line of a player, and what the program is like when it comes.  The special functions around the
character may change their argument, and say whether the command is done. -/
structure Call where
  line : CString
  ch : CharData
  strings : Strings
  noSpecials : Bool
  sysLogall : Bool
  special : ℤ → Memory → Option ℕ → Memory × Bool

/-- What a player is told who is in the wrong position. -/
def positionText : ℤ → Option String
  | 0 => some "Lie still; you are DEAD!!! :-( \n\r"
  | 1 => some "You are in a pretty bad shape, unable to do anything!\n\r"
  | 2 => some "You are in a pretty bad shape, unable to do anything!\n\r"
  | 3 => some "All you can do right now, is think about the stars!\n\r"
  | 4 => some "In your dreams, or what?\n\r"
  | 5 => some "Nah... You feel too relaxed to do that..\n\r"
  | 6 => some "Maybe you should get on your feet first?\n\r"
  | 7 => some "No way! You are fighting for your life!\n\r"
  | 8 => some "Fraid you can't do that\n\r"
  | 9 => some "Fraid you have no mounted steed.\n\r"
  | _ => none

section Source

variable {φ : Type} (call : Call)

/-- The copy of the line that is cut up.  `memsnprintf` takes no more than its size. -/
def Call.arg : Text :=
  match call.line.val with
  | [] => []
  | c :: rest =>
      if isAlpha c then (call.strings.memstrlink call.line).val
      else (c :: 32 :: rest).take (call.line.val.length + 1)

/-- What is written to the log about a command that is carried out. -/
def Call.logs : List (Action φ) :=
  let ch := call.ch
  let entry := [Action.logPrint (some ch.inRoom) ch.name call.line.val]
  (if call.sysLogall then if ch.isPc then entry else []
    else if ch.logMe then entry
    else if ch.isImmortal ∧ ch.maxLevel < 60 then entry else []) ++
  if 2000000 < ch.gold then [.logPrint none ch.name call.line.val] else []

/-- The end of the parser. -/
def Call.carryOut (func : φ) (number : ℤ) (memory : Memory) (arg : Option ℕ) : List (Action φ) :=
  if call.noSpecials then [.func func memory arg number]
  else
    let (memory', done) := call.special number memory arg
    .special number memory arg :: if done then [] else [.func func memory' arg number]

/-- The checks of a command that was found. -/
def Call.dispatch (handling : Handling φ) (number : ℤ) (memory : Memory) (arg : Option ℕ) :
    List (Action φ) :=
  let ch := call.ch
  if ch.maxLevel < handling.minLevel then [.sendOutput "Pardon?\n\r"]
  else match handling.func with
    | none => [.sendOutput "Sorry, but that command has yet to be implemented...\n\r"]
    | some func =>
        if ch.paralyzed ∧ 3 < handling.minPos then
          [.sendOutput "You are paralyzed, you can't do much!\n\r"]
        else if ch.frozen ∧ ch.isPc then
          [.sendOutput "You have been frozen in your steps, you cannot do a thing!\n\r"]
        else if ch.position < handling.minPos then
          (positionText ch.position).toList.map .sendOutput
        else call.logs ++ call.carryOut func number memory arg

/-- `skip_spaces`, which returns NULL for NULL. -/
def skipSpacesFrom (memory : Memory) : Option ℕ → Option (Option ℕ)
  | none => some none
  | some string => skipSpaces memory string

/-- `FindCommand`, unless there is no word. -/
def findCommandAt (fuel : ℕ) (h : Heap CommandDef (List UInt8) CommandBTree) (memory : Memory) :
    Option ℕ → Traced CommandBTree (Heap CommandDef (List UInt8) CommandBTree × Option CommandDef)
  | none => pure (h, none)
  | some arg => do
      let word ← compute (stringAt memory arg)
      findCommand fuel h word

/-- `CommandParser`. -/
def commandParser (fuel : ℕ) (fillWords : Heap ℕ (List UInt8) Unit)
    (handling : CommandDef → Handling φ) (h : Heap CommandDef (List UInt8) CommandBTree) :
    Traced CommandBTree (Heap CommandDef (List UInt8) CommandBTree × List (Action φ)) := do
  match call.line.val with
  | [] => pure (h, [])
  | c :: _ =>
      if c = 10 ∨ c = 13 then pure (h, [])
      else
        let argument ← compute (getArgumentNofill fuel fillWords (call.arg ++ [0]) (some 0))
        let arg2 ← compute (skipSpacesFrom argument.memory argument.line)
        let (h, cmd) ← findCommandAt fuel h argument.memory argument.arg
        match cmd with
        | none => pure (h, [.sendOutput "Pardon?\n\r"])
        | some cmd => pure (h, call.dispatch (handling cmd) cmd.number argument.memory arg2)

/-- Lines one after another, of any players. -/
def commandParsers (fuel : ℕ) (fillWords : Heap ℕ (List UInt8) Unit)
    (handling : CommandDef → Handling φ) : List Call → Heap CommandDef (List UInt8) CommandBTree →
    Traced CommandBTree (Heap CommandDef (List UInt8) CommandBTree × List (List (Action φ)))
  | [], h => pure (h, [])
  | call :: calls, h => do
      let (h, actions) ← commandParser call fuel fillWords handling h
      let (h, rest) ← commandParsers fuel fillWords handling calls h
      pure (h, actions :: rest)

end Source

/-! ## What was typed -/

section Typed

variable (call : Call)

/-- The line, with a blank behind a first character that is no letter. -/
def Call.typed : Text :=
  match call.line.val with
  | [] => []
  | c :: rest => if isAlpha c then c :: rest else c :: 32 :: rest

/-- The first word of the line and what is left of it, in lower case. -/
def Call.firstWord : Option Text × Option Text :=
  nextWord true false 0 1 (some (lowerText call.typed))

/-- The word by which the command is looked up. -/
def Call.verb : Option Text :=
  call.firstWord.1

/-- The argument, in lower case. -/
def Call.rest : Option Text :=
  call.firstWord.2.bind fun left ↦ match left.dropWhile isSpace with
    | [] => none
    | c :: rest => some (c :: rest)

/-- The line is empty, or begins with the end of a line. -/
def Call.Blank : Prop :=
  ∀ c ∈ call.line.val.head?, c = 10 ∨ c = 13

/-- The text that an argument points to, where NULL is none. -/
def argText (memory : Memory) : Option ℕ → Option (Option Text)
  | none => some none
  | some arg => (stringAt memory arg).map some

/-- Up to the case of its letters the argument is what was typed. -/
def Call.Argues (memory : Memory) (arg : Option ℕ) : Prop :=
  (argText memory arg).map (Option.map lowerText) = some call.rest

theorem toLower_eq_blank_iff (c : UInt8) : toLower c = 32 ↔ c = 32 := by
  constructor
  · intro h
    exact Caseless.eq_of_toLower (d := 32) (by decide) (congrArg UInt8.toNat h)
  · rintro rfl
    rfl

theorem isSpace_toLower (c : UInt8) : isSpace (toLower c) = isSpace c := by
  unfold toLower
  split_ifs with hupper
  · unfold isSpace
    simp only [UInt8.le_iff_toNat_le, ← UInt8.toNat_inj, UInt8.toNat_add, UInt8.reduceToNat]
      at hupper ⊢
    apply decide_eq_decide.mpr
    omega
  · rfl

theorem dropWhile_isSpace_lowerText (text : Text) :
    (lowerText text).dropWhile isSpace = lowerText (text.dropWhile isSpace) := by
  rw [lowerText, List.dropWhile_map, show isSpace ∘ toLower = isSpace from funext isSpace_toLower]
  rfl

/-- Lines are cut at the same places in lower case. -/
theorem cut_lowerText (text : Text) :
    cut true 32 (lowerText text) =
      (lowerText (cut true 32 text).1, (cut true 32 text).2.map lowerText) := by
  have hcomp : (fun c : UInt8 ↦ decide (c ≠ 32)) ∘ toLower = fun c ↦ decide (c ≠ 32) := by
    funext c
    simp [toLower_eq_blank_iff]
  unfold cut lowerText
  rw [List.dropWhile_map, List.takeWhile_map, hcomp]
  cases text.dropWhile fun c ↦ decide (c ≠ 32) with
  | nil => rfl
  | cons c rest => rfl

theorem nextWord_lowerText (turns : ℕ) (text : Text) :
    nextWord true false 0 (turns + 1) (some (lowerText text)) =
      ((nextWord true false 0 (turns + 1) (some text)).1.map lowerText,
        (nextWord true false 0 (turns + 1) (some text)).2.map lowerText) := by
  simp only [nextWord, turn, dropWhile_isSpace_lowerText]
  cases text.dropWhile isSpace with
  | nil => rfl
  | cons c rest =>
      have hcut := cut_lowerText (c :: rest)
      rw [lowerText, List.map_cons] at hcut ⊢
      simp only [ne_eq, not_true_eq_false, false_and, if_false, lowerText, hcut, Option.map_some,
        Bool.false_eq_true]

theorem Call.fold_arg : fold call.arg = fold call.typed := by
  unfold Call.arg Call.typed
  cases hline : call.line.val with
  | nil => rfl
  | cons c rest =>
      dsimp only
      split_ifs
      · rw [← hline]
        exact call.strings.rank_memstrlink call.line
      · rw [List.take_of_length_le (by simp)]

theorem Call.length_arg : call.arg.length = call.typed.length := by
  simpa [fold] using congrArg List.length call.fold_arg

theorem Call.length_typed_le : call.typed.length ≤ call.line.val.length + 1 := by
  unfold Call.typed
  cases call.line.val with
  | nil => exact Nat.zero_le _
  | cons c rest =>
      dsimp only
      split_ifs <;> simp

theorem Call.nul_not_mem_arg : 0 ∉ call.arg := by
  have hnul := call.line.property
  unfold Call.arg
  cases hline : call.line.val with
  | nil => simp
  | cons c rest =>
      rw [hline, List.mem_cons, not_or] at hnul
      dsimp only
      split_ifs
      · exact (call.strings.memstrlink call.line).property
      · rw [List.take_of_length_le (by simp)]
        simp [hnul.1, hnul.2]

/-- The first word of the copy is that of the line, but for the case of the letters. -/
theorem Call.firstWord_eq (turns : ℕ) :
    call.firstWord = ((nextWord true false 0 (turns + 1) (some call.arg)).1.map lowerText,
      (nextWord true false 0 (turns + 1) (some call.arg)).2.map lowerText) := by
  rw [← nextWord_lowerText, lowerText_of_fold call.fold_arg, Call.firstWord]
  simp [nextWord]

/-- What is left of the line is the argument. -/
theorem argues_of_keeps {memory : Memory} {ptr : Option ℕ} {left : Option Text}
    (hkeeps : Keeps memory ptr left) (hleft : call.firstWord.2 = left.map lowerText) :
    ∃ arg, skipSpacesFrom memory ptr = some arg ∧ call.Argues memory arg := by
  unfold Call.Argues Call.rest
  rw [hleft]
  cases hkeeps with
  | null => exact ⟨none, rfl, rfl⟩
  | @line past tail line hnul =>
      rw [Option.map_some, Option.bind_some, dropWhile_isSpace_lowerText, skipSpacesFrom]
      cases hbody : line.dropWhile isSpace with
      | nil =>
          have hblank : ∀ c ∈ line, isSpace c = true := List.dropWhile_eq_nil_iff.mp hbody
          exact ⟨none, skipSpaces_blank past hblank tail, rfl⟩
      | cons c text =>
          have hsplit := List.takeWhile_append_dropWhile (p := isSpace) (l := line)
          rw [hbody] at hsplit
          have hc : isSpace c = false := by
            have hhead := List.head_dropWhile_not isSpace (l := line) (by rw [hbody]; simp)
            simpa [hbody] using hhead
          have htext : 0 ∉ c :: text := by
            rw [← hsplit] at hnul
            exact fun hmem ↦ hnul (List.mem_append_right _ hmem)
          have hzero : c ≠ 0 := fun h ↦ htext (h ▸ List.mem_cons_self)
          refine ⟨some (past ++ line.takeWhile isSpace).length, ?_, ?_⟩
          · rw [← hsplit, List.append_assoc]
            refine (skipSpaces_word past (fun d hd ↦ List.mem_takeWhile_imp hd) hc hzero _).trans ?_
            rw [hsplit]
          · have hstring := stringAt_append (past ++ line.takeWhile isSpace) htext tail
            rw [← List.append_assoc, List.append_assoc past, hsplit, List.append_assoc] at hstring
            rw [argText, hstring]
            simp [lowerText]

theorem cut_initial (text : Text) : (cut true 32 text).1 <+: text := by
  unfold cut
  cases text.dropWhile fun c ↦ decide (c ≠ 32) with
  | nil => exact List.prefix_refl text
  | cons c rest => exact List.takeWhile_prefix _

theorem Call.verb_infix {verb : Text} (hverb : call.verb = some verb) :
    verb <:+: lowerText call.typed := by
  have hsuffix := (lowerText call.typed).dropWhile_suffix isSpace
  unfold Call.verb Call.firstWord at hverb
  simp only [nextWord, turn] at hverb
  cases hbody : (lowerText call.typed).dropWhile isSpace with
  | nil =>
      rw [hbody] at hverb
      cases hverb
  | cons c rest =>
      rw [hbody] at hverb hsuffix
      simp only [ne_eq, not_true_eq_false, false_and, if_false, Bool.false_eq_true] at hverb
      rw [← Option.some.inj hverb]
      exact (cut_initial (c :: rest)).isInfix.trans hsuffix.isInfix

/-- The word is a string, no longer than the copy. -/
theorem Call.verb_string {verb : Text} (hverb : call.verb = some verb) :
    0 ∉ verb ∧ verb.length ≤ call.line.val.length + 1 := by
  have hpart := call.verb_infix hverb
  have hnul : 0 ∉ lowerText call.typed := by
    rw [← lowerText_of_fold call.fold_arg]
    exact nul_not_mem_lowerText call.nul_not_mem_arg
  refine ⟨fun hmem ↦ hnul (hpart.subset hmem), hpart.length_le.trans ?_⟩
  rw [lowerText, List.length_map]
  exact call.length_typed_le

variable {fuel : ℕ} {fillWords : Heap ℕ (List UInt8) Unit}

/-- The first argument is the word, and behind it is the argument of the function. -/
theorem Call.parses (hfinds : Finds fuel fillWords) (hfuel : call.line.val.length + 1 < fuel) :
    ∃ argument arg2, getArgumentNofill fuel fillWords (call.arg ++ [0]) (some 0) = some argument ∧
      skipSpacesFrom argument.memory argument.line = some arg2 ∧
      argument.text = some call.verb ∧ call.Argues argument.memory arg2 := by
  have hlength := call.length_typed_le
  rw [← call.length_arg] at hlength
  have hkeeps : Keeps (call.arg ++ [0]) (some 0) (some call.arg) :=
    Keeps.line [] [] call.nul_not_mem_arg
  obtain ⟨argument, hrun, hshows⟩ :=
    getArgumentOn_shows true false 0 hfinds hkeeps (by rw [Option.getD_some]; omega)
  obtain ⟨turns, rfl⟩ : ∃ turns, fuel = turns + 1 := ⟨fuel - 1, by omega⟩
  have hword := call.firstWord_eq turns
  obtain ⟨arg2, hskip, hargues⟩ :=
    argues_of_keeps call hshows.keeps (congrArg Prod.snd hword)
  refine ⟨argument, arg2, ?_, hskip, ?_, hargues⟩
  · rw [getArgumentNofill, ← getArgumentOn_true, hrun]
  · rw [hshows.text, Call.verb, hword]

variable {h : Heap CommandDef (List UInt8) CommandBTree}

theorem findCommandAt_result {argument : Argument} {verb : Option Text}
    (htext : argument.text = some verb) :
    (findCommandAt fuel h argument.memory argument.arg).result =
      verb.elim (some (h, none)) fun verb ↦ (findCommand fuel h verb).result := by
  obtain ⟨memory, arg, line⟩ := argument
  cases arg with
  | none =>
      obtain rfl := Option.some.inj htext
      rfl
  | some arg =>
      obtain ⟨word, hword, rfl⟩ := Option.map_eq_some_iff.mp htext
      rw [findCommandAt, result_bind, result_compute, hword]
      rfl

end Typed

/-! ## One line -/

section Lines

variable {φ : Type} {call : Call} {fuel : ℕ} {fillWords : Heap ℕ (List UInt8) Unit}
  {h : Heap CommandDef (List UInt8) CommandBTree}

theorem commandParser_blank {handling : CommandDef → Handling φ} (hblank : call.Blank) :
    (commandParser call fuel fillWords handling h).result = some (h, []) := by
  unfold commandParser
  unfold Call.Blank at hblank
  cases hline : call.line.val with
  | nil => rfl
  | cons c rest =>
      rw [hline] at hblank
      dsimp only
      rw [if_pos (hblank c rfl)]
      rfl

/-- The command that is found decides what the parser does. -/
theorem commandParser_result {handling : CommandDef → Handling φ} (hfinds : Finds fuel fillWords)
    (hfuel : call.line.val.length + 1 < fuel) (hblank : ¬ call.Blank) :
    ∃ memory arg, call.Argues memory arg ∧
      (commandParser call fuel fillWords handling h).result =
        (call.verb.elim (some (h, none)) fun verb ↦ (findCommand fuel h verb).result).map fun found ↦
          (found.1, found.2.elim [.sendOutput "Pardon?\n\r"] fun cmd ↦
            call.dispatch (handling cmd) cmd.number memory arg) := by
  obtain ⟨argument, arg, hargument, hskip, htext, hargues⟩ := call.parses hfinds hfuel
  refine ⟨argument.memory, arg, hargues, ?_⟩
  unfold commandParser
  unfold Call.Blank at hblank
  cases hline : call.line.val with
  | nil =>
      rw [hline] at hblank
      exact absurd (by simp) hblank
  | cons c rest =>
      rw [hline] at hblank
      have hc : ¬ (c = 10 ∨ c = 13) := fun hc ↦ hblank (by rintro d ⟨⟩; exact hc)
      dsimp only
      rw [if_neg hc, result_bind, result_compute, hargument, Option.bind_some, result_bind,
        result_compute, hskip, Option.bind_some, result_bind, findCommandAt_result htext]
      cases (call.verb.elim (some (h, none)) fun verb ↦ (findCommand fuel h verb).result) with
      | none => rfl
      | some found =>
          obtain ⟨h', cmd⟩ := found
          cases cmd <;> rfl

/-- The checks let a character call the function of a command. -/
structure Permits (handling : Handling φ) (ch : CharData) (func : φ) : Prop where
  func : handling.func = some func
  level : handling.minLevel ≤ ch.maxLevel
  paralyzed : ch.paralyzed = true → handling.minPos ≤ 3
  frozen : ¬ (ch.frozen = true ∧ ch.isPc = true)
  position : handling.minPos ≤ ch.position

variable {number : ℤ} {memory : Memory} {arg : Option ℕ} {handling : Handling φ}

theorem Permits.dispatch {func : φ} (h : Permits handling call.ch func) :
    call.dispatch handling number memory arg =
      call.logs ++ call.carryOut func number memory arg := by
  have hparalyzed : ¬ (call.ch.paralyzed = true ∧ 3 < handling.minPos) :=
    fun hp ↦ absurd (h.paralyzed hp.1) (not_le.mpr hp.2)
  simp only [Call.dispatch, h.func]
  rw [if_neg (not_lt.mpr h.level), if_neg hparalyzed, if_neg h.frozen,
    if_neg (not_lt.mpr h.position)]

theorem dispatch_level (hlevel : call.ch.maxLevel < handling.minLevel) :
    call.dispatch handling number memory arg = [.sendOutput "Pardon?\n\r"] :=
  if_pos hlevel

/-- A command is carried out with all checks passed, or the player is told why not. -/
theorem dispatch_cases :
    (∀ action ∈ call.dispatch handling number memory arg, ∃ text, action = .sendOutput text) ∨
      ∃ func, Permits handling call.ch func := by
  by_cases hpermits : ∃ func, Permits handling call.ch func
  · exact .inr hpermits
  left
  unfold Call.dispatch
  dsimp only
  by_cases hlevel : call.ch.maxLevel < handling.minLevel
  · simp [if_pos hlevel]
  rw [if_neg hlevel]
  cases hfunc : handling.func with
  | none => simp
  | some func =>
      dsimp only
      split_ifs with hparalyzed hfrozen hposition
      · simp
      · simp
      · intro action hmem
        obtain ⟨text, -, rfl⟩ := List.mem_map.mp hmem
        exact ⟨text, rfl⟩
      · refine absurd ⟨func, hfunc, not_lt.mp hlevel, ?_, hfrozen, not_lt.mp hposition⟩ hpermits
        exact fun hp ↦ not_lt.mp fun hlt ↦ hparalyzed ⟨hp, hlt⟩

end Lines

/-! ## All lines -/

section Runs

variable {φ : Type} {fuel : ℕ} {fillWords : Heap ℕ (List UInt8) Unit} {commands : List CommandDef}
  {base : Heap CommandDef (List UInt8) CommandBTree} {t : BinaryTree CommandDef}

/-- What the actions for a line are. -/
structure Answers (commands : List CommandDef) (handling : CommandDef → Handling φ) (call : Call)
    (actions : List (Action φ)) : Prop where
  /-- Only a command that has the word as its beginning and passes the checks is carried out. -/
  only : (∀ action ∈ actions, ∃ text, action = .sendOutput text) ∨
    ∃ cmd ∈ commands, ∃ verb func memory arg, call.verb = some verb ∧ StartsWith verb cmd.name ∧
      Permits (handling cmd) call.ch func ∧ call.Argues memory arg ∧
      actions = call.logs ++ call.carryOut func cmd.number memory arg
  /-- The only command with that beginning is carried out if it passes the checks. -/
  carried : ∀ cmd verb func, ¬ call.Blank → call.verb = some verb → OnlyMatch commands verb cmd →
    Permits (handling cmd) call.ch func → ∃ memory arg, call.Argues memory arg ∧
      actions = call.logs ++ call.carryOut func cmd.number memory arg
  /-- A command of a higher level is unknown. -/
  unknown : ¬ call.Blank → (∀ verb, call.verb = some verb → ∀ cmd ∈ commands,
    StartsWith verb cmd.name → call.ch.maxLevel < (handling cmd).minLevel) →
    actions = [.sendOutput "Pardon?\n\r"]

/-- One line, whatever was looked up before. -/
theorem commandParser_answers (hregistered : Registered base commands t)
    (hkey : base.key = CommandDef.name) (hfinds : Finds fuel fillWords)
    (hsize : 2 * t.numNodes ≤ fuel) (handling : CommandDef → Handling φ) (call : Call)
    (hfuel : call.line.val.length + 1 < fuel) (hlength : call.line.val.length + 1 < 2 ^ 31)
    (v : CommandDef → ℕ) :
    ∃ v' actions, (commandParser call fuel fillWords handling (base.visit v)).result =
        some (base.visit v', actions) ∧ Answers commands handling call actions := by
  by_cases hblank : call.Blank
  · refine ⟨v, [], commandParser_blank hblank, .inl (by simp), ?_, ?_⟩
    · exact fun _ _ _ hnot ↦ absurd hblank hnot
    · exact fun hnot ↦ absurd hblank hnot
  obtain ⟨memory, arg, hargues, hresult⟩ :=
    @commandParser_result φ call fuel fillWords (base.visit v) handling hfinds hfuel hblank
  rw [hresult]
  cases hverb : call.verb with
  | none =>
      refine ⟨v, _, rfl, .inl (by simp), ?_, fun _ _ ↦ rfl⟩
      rintro _ _ _ - hword
      rw [hverb] at hword
      cases hword
  | some verb =>
      obtain ⟨hnul, hle⟩ := call.verb_string hverb
      have hfalling := hregistered.falling hkey hnul
      have hquery := query_eq_zero_iff hnul (by omega : verb.length < 2 ^ 31)
      obtain ⟨v', found, hcall, -, hfound⟩ :=
        findCommand_spec (hregistered.represents.visit v) hkey hfalling hsize
      rw [Option.elim_some, hcall]
      refine ⟨v', _, rfl, ?_⟩
      cases found with
      | none =>
          refine ⟨.inl (by simp), ?_, fun _ _ ↦ rfl⟩
          rintro cmd verb' func - hword honly -
          obtain rfl := Option.some.inj (hverb.symm.trans hword)
          have hone : ∀ a ∈ commands, ∀ b ∈ commands,
              StartsWith verb a.name → StartsWith verb b.name → a = b :=
            fun a ha b hb hstarts hstarts' ↦
              (honly.only a ha hstarts).trans (honly.only b hb hstarts').symm
          have hright := (hregistered.outcome_iff hfalling hquery hfound).mpr (.inl hone) cmd
          cases hright.mpr honly
      | some cmd =>
          obtain ⟨hmem, hzero⟩ := find_some ((hfound cmd).mp rfl).1
          have hcmd := hregistered.mem cmd hmem
          have hstarts := (hquery cmd).mp hzero
          refine ⟨?_, ?_, fun _ hlevels ↦ dispatch_level (hlevels verb hverb cmd hcmd hstarts)⟩
          · rcases dispatch_cases with htexts | ⟨func, hpermits⟩
            · exact .inl htexts
            · exact .inr ⟨cmd, hcmd, verb, func, memory, arg, hverb, hstarts, hpermits, hargues,
                hpermits.dispatch⟩
          · rintro cmd' verb' func - hword honly hpermits
            obtain rfl := Option.some.inj (hverb.symm.trans hword)
            obtain rfl := honly.only cmd hcmd hstarts
            exact ⟨memory, arg, hargues, hpermits.dispatch⟩

/-- Lines one after another change nothing on the tree but what was visited. -/
theorem commandParsers_visit (hregistered : Registered base commands t)
    (hkey : base.key = CommandDef.name) (hfinds : Finds fuel fillWords)
    (hsize : 2 * t.numNodes ≤ fuel) (handling : CommandDef → Handling φ) (calls : List Call)
    (hcalls : ∀ call ∈ calls,
      call.line.val.length + 1 < fuel ∧ call.line.val.length + 1 < 2 ^ 31)
    (v : CommandDef → ℕ) :
    ∃ v' answers, (commandParsers fuel fillWords handling calls (base.visit v)).result =
      some (base.visit v', answers) ∧ List.Forall₂ (Answers commands handling) calls answers := by
  induction calls generalizing v with
  | nil => exact ⟨v, [], rfl, .nil⟩
  | cons call calls ih =>
      obtain ⟨⟨hfuel, hlength⟩, hcalls⟩ := List.forall_mem_cons.mp hcalls
      obtain ⟨v₁, actions, hcall, hanswers⟩ := commandParser_answers hregistered hkey hfinds hsize
        handling call hfuel hlength v
      obtain ⟨v', answers, hrun, hall⟩ := ih hcalls v₁
      refine ⟨v', actions :: answers, ?_, .cons hanswers hall⟩
      rw [commandParsers, result_bind, hcall, Option.bind_some, result_bind, hrun]
      rfl

/-- Lines of any players, one after another from the start: none makes the parser fail, and each is
answered as it should be, whatever was typed before. -/
theorem commandParsers_answers (handling : CommandDef → Handling φ) (calls : List Call)
    (hnames : (commands.map CommandDef.name).Nodup) (hcommands : 2 * commands.length ≤ fuel)
    (htable : 8 ≤ fuel) (hcalls : ∀ call ∈ calls,
      call.line.val.length + 1 < fuel ∧ call.line.val.length + 1 < 2 ^ 31) :
    ∃ fillWords items h answers, initializeFillWords fuel = some fillWords ∧
      (initializeCommands fuel commands).result = some items ∧
      (commandParsers fuel fillWords handling calls items.name).result = some (h, answers) ∧
      List.Forall₂ (Answers commands handling) calls answers := by
  obtain ⟨fillWords, hinit, htree⟩ := initializeFillWords_tree htable
  obtain ⟨items, t, hitems, hkey, -, hregistered⟩ :=
    initializeCommands_spec hnames.of_map (by omega : commands.length ≤ fuel)
  have hsize : 2 * t.numNodes ≤ fuel := by
    have hle := hregistered.numNodes_le
    omega
  obtain ⟨v', answers, hrun, hall⟩ := commandParsers_visit hregistered hkey
    (fun word hword ↦ htree word hword fuel htable) hsize handling calls hcalls items.name.visited
  exact ⟨fillWords, items, _, answers, hinit, hitems, hrun, hall⟩

/-- The fields of the core commands, with their names for functions. -/
def coreHandling (cmd : CommandDef) : Handling Text :=
  ⟨some cmd.name, 0, if cmd.number ≤ 79 then 58 else 0⟩

/-- A player of the first level who stands in the room 3001. -/
def beginner : CharData :=
  ⟨[97], 1, 8, 3001, 0, false, false, false, false, false⟩

/-- A line of that player, while the special functions are off. -/
def beginnerCall (line : CString) : Call :=
  ⟨line, beginner, lowerStrings, true, false, fun _ memory _ ↦ (memory, false)⟩

/-- The lines `SI x` and `Bu It broke`: the first command is unknown to the player, and the second
function gets its argument. -/
theorem commandParsers_answers_beginner :
    let calls := [beginnerCall ⟨[83, 73, 32, 120], by decide⟩,
      beginnerCall ⟨[66, 117, 32, 32, 73, 116, 32, 98, 114, 111, 107, 101], by decide⟩]
    (∃ fillWords items h answers, initializeFillWords 14 = some fillWords ∧
      (initializeCommands 14 coreCommands).result = some items ∧
      (commandParsers 14 fillWords coreHandling calls items.name).result = some (h, answers) ∧
      List.Forall₂ (Answers coreCommands coreHandling) calls answers) ∧
    ∃ fillWords items h, initializeFillWords 14 = some fillWords ∧
      (initializeCommands 14 coreCommands).result = some items ∧
      (commandParsers 14 fillWords coreHandling calls items.name).result =
        some (h, [[.sendOutput "Pardon?\n\r"],
          [.func [98, 117, 103] [98, 117, 0, 32, 105, 116, 32, 98, 114, 111, 107, 101, 0] (some 4)
            82]]) :=
  ⟨commandParsers_answers coreHandling _ (by decide) (by decide) (by decide) (by decide),
    _, _, _, rfl, rfl, rfl⟩

end Runs

end HavokMud.Commands
