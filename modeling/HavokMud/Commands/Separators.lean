import HavokMud.Commands.ArgumentRuns

/-!
# Platforms without `strsep`

Where the C library has no `strsep`, the one of `text_process.c` takes its place.  At a delimiter
that the string ends with it cuts nothing off, and what `get_argument_common` yields of a line
depends on the platform if it comes to such a delimiter.
-/

namespace HavokMud.Commands

open BTree

/-! ## The functions -/

/-- The loop of `strsep` in `text_process.c`: where it stops, and `delimstart`.  What `del` points
to is the NUL behind the delimiter. -/
def delimLoop (delim : List UInt8) : Memory → ℕ → ℕ → Option ℕ → Option (ℕ × Option ℕ)
  | [], _, _, _ => none
  | c :: memory, stop, del, delimstart =>
      if c = 0 then some (stop, delimstart)
      else
        match delim[del]? with
        | none => some (stop, delimstart)
        | some d =>
            if c = d then
              delimLoop delim memory (stop + 1) (del + 1)
                (if del = 0 then some stop else delimstart)
            else delimLoop delim memory (stop + 1) 0 delimstart

/-- `strsep` of `text_process.c`.  The token that it returns is at the old index. -/
def ownStrsep (memory : Memory) (start : ℕ) (delim : List UInt8) :
    Option (Memory × Option ℕ) := do
  let (stop, delimstart) ← delimLoop delim (memory.drop start) start 0 none
  let c ← memory[stop]?
  if c = 0 then some (memory, none)
  else
    let delimstart ← delimstart
    some (memory.set delimstart 0, some stop)

/-- `strsep` on a platform with `HAVE_STRSEP` or without. -/
def strsepOn (haveStrsep : Bool) (memory : Memory) (line : ℕ) (delim : UInt8) :
    Option (Memory × Option ℕ) :=
  if haveStrsep then strsep memory line delim else ownStrsep memory line [delim]

/-- A call of `strsep`: the memory, the token and the rest.  Of NULL there is no token. -/
def strsepCall (haveStrsep : Bool) (memory : Memory) (stringp : Option ℕ) (delim : UInt8) :
    Option (Memory × Option ℕ × Option ℕ) :=
  match stringp with
  | none => some (memory, none, none)
  | some start => do
      let (memory, rest) ← strsepOn haveStrsep memory start delim
      some (memory, some start, rest)

section Platform

variable (haveStrsep : Bool) (fuel : ℕ) (fillWords : Heap ℕ (List UInt8) Unit) (doFill : Bool)
  (delim : UInt8)

/-- The loop that splits off the first argument. -/
def splitLoopOn : ℕ → Memory → Option ℕ → Option Argument
  | 0, _, _ => none
  | _ + 1, memory, none => some ⟨memory, none, none⟩
  | turns + 1, memory, some line => do
      match ← skipSpaces memory line with
      | none => some ⟨memory, none, none⟩
      | some line =>
          let c ← memory[line]?
          let delimited := delim ≠ 0 ∧ c = delim
          let arg := if delimited then line + 1 else line
          let (memory, rest) ← strsepOn haveStrsep memory arg (if delimited then delim else 32)
          let word ← stringAt memory arg
          let filling ← if doFill then fillWord fuel fillWords word else some false
          if filling then splitLoopOn turns memory rest
          else some ⟨memory, some arg, rest⟩

/-- `get_argument_common` on a platform. -/
def getArgumentOn (memory : Memory) (lineIn : Option ℕ) : Option Argument := do
  match lineIn with
  | none => some ⟨memory, none, none⟩
  | some line =>
      let c ← memory[line]?
      if c = 0 then some ⟨memory, none, none⟩
      else
        let split ← splitLoopOn haveStrsep fuel fillWords doFill delim fuel memory (some line)
        match split.arg with
        | none => some split
        | some arg =>
            let word ← stringAt split.memory arg
            some { split with memory := lowerLoop word.length split.memory arg }

theorem splitLoopOn_true (turns : ℕ) (memory : Memory) (line : Option ℕ) :
    splitLoopOn true fuel fillWords doFill delim turns memory line =
      splitLoop fuel fillWords doFill delim turns memory line := by
  induction turns generalizing memory line with
  | zero => rfl
  | succ turns ih =>
      cases line with
      | none => rfl
      | some line =>
          simp only [splitLoopOn, strsepOn, if_true, ih]
          rfl

/-- With `HAVE_STRSEP` this is the function as it was above. -/
theorem getArgumentOn_true (memory : Memory) (lineIn : Option ℕ) :
    getArgumentOn true fuel fillWords doFill delim memory lineIn =
      getArgumentCommon fuel fillWords memory lineIn doFill delim := by
  cases lineIn with
  | none => rfl
  | some line =>
      simp only [getArgumentOn, splitLoopOn_true]
      rfl

end Platform

/-- The text of an argument, where NULL is none. -/
def Argument.text (argument : Argument) : Option (Option (List UInt8)) :=
  match argument.arg with
  | none => some none
  | some arg => (stringAt argument.memory arg).map some

/-- The texts of the arguments that calls one after another yield. -/
def tokens (call : Memory → Option ℕ → Option Argument) :
    ℕ → Memory → Option ℕ → Option (List (Option (List UInt8)))
  | 0, _, _ => some []
  | n + 1, memory, line => do
      let argument ← call memory line
      let token ← argument.text
      let later ← tokens call n argument.memory argument.line
      some (token :: later)

/-! ## One call -/

/-- What is cut off of a string, and what is left of it.  Without `HAVE_STRSEP` nothing is left
where the delimiter is the last character. -/
def cut (haveStrsep : Bool) (delim : UInt8) (text : List UInt8) :
    List UInt8 × Option (List UInt8) :=
  match text.dropWhile (· ≠ delim) with
  | [] => (text, none)
  | _ :: rest =>
      if haveStrsep = false ∧ rest = [] then (text, none)
      else (text.takeWhile (· ≠ delim), some rest)

section Functions

variable {memory word rest text : List UInt8} {c delim : UInt8}

theorem delimLoop_append (hword : 0 ∉ word) (hdelim : delim ∉ word) (memory : Memory) (i : ℕ)
    (delimstart : Option ℕ) : delimLoop [delim] (word ++ memory) i 0 delimstart =
      delimLoop [delim] memory (i + word.length) 0 delimstart := by
  induction word generalizing i with
  | nil => rfl
  | cons c word ih =>
      obtain ⟨hc, hword⟩ := not_or.mp (mt List.mem_cons.mpr hword)
      obtain ⟨hd, hdelim⟩ := not_or.mp (mt List.mem_cons.mpr hdelim)
      rw [List.cons_append, delimLoop, if_neg (Ne.symm hc)]
      dsimp only [List.getElem?_cons_zero]
      rw [if_neg (Ne.symm hd), ih hword hdelim, List.length_cons, Nat.add_assoc, Nat.add_comm 1]

/-- The loop stops behind the first delimiter. -/
theorem delimLoop_delim (hword : 0 ∉ word) (hdelim : delim ∉ word) (hzero : delim ≠ 0) (c : UInt8)
    (memory : Memory) (i : ℕ) : delimLoop [delim] (word ++ delim :: c :: memory) i 0 none =
      some (i + word.length + 1, some (i + word.length)) := by
  rw [delimLoop_append hword hdelim]
  simp [delimLoop, hzero]

theorem ownStrsep_end (pre : List UInt8) (hword : 0 ∉ word) (hdelim : delim ∉ word)
    (tail : List UInt8) : ownStrsep (pre ++ (word ++ 0 :: tail)) pre.length [delim] =
      some (pre ++ (word ++ 0 :: tail), none) := by
  rw [ownStrsep, List.drop_left, delimLoop_append hword hdelim]
  simp [delimLoop]

/-- With a NUL behind the delimiter, the delimiter stays in the token. -/
theorem ownStrsep_last (pre : List UInt8) (hword : 0 ∉ word) (hdelim : delim ∉ word)
    (hzero : delim ≠ 0) (tail : List UInt8) :
    ownStrsep (pre ++ (word ++ delim :: 0 :: tail)) pre.length [delim] =
      some (pre ++ (word ++ delim :: 0 :: tail), none) := by
  rw [ownStrsep, List.drop_left, delimLoop_delim hword hdelim hzero]
  simp [Nat.add_assoc]

theorem ownStrsep_delim (pre : List UInt8) (hword : 0 ∉ word) (hdelim : delim ∉ word)
    (hzero : delim ≠ 0) (hc : c ≠ 0) (tail : List UInt8) :
    ownStrsep (pre ++ (word ++ delim :: c :: tail)) pre.length [delim] =
      some (pre ++ (word ++ 0 :: c :: tail), some (pre ++ (word ++ [0])).length) := by
  rw [ownStrsep, List.drop_left, delimLoop_delim hword hdelim hzero]
  simp [Nat.add_assoc, List.set_append_right, hc]

variable {haveStrsep : Bool}

theorem cut_of_not_mem (hdelim : delim ∉ text) : cut haveStrsep delim text = (text, none) := by
  have hall : ∀ c ∈ text, decide (c ≠ delim) = true := fun c hc ↦
    decide_eq_true (ne_of_mem_of_not_mem hc hdelim)
  rw [cut, List.dropWhile_eq_nil_iff.mpr hall]

theorem cut_of_append (hdelim : delim ∉ word) (rest : List UInt8) :
    cut haveStrsep delim (word ++ delim :: rest) =
      if haveStrsep = false ∧ rest = [] then (word ++ delim :: rest, none)
      else (word, some rest) := by
  have hall : ∀ c ∈ word, decide (c ≠ delim) = true := fun c hc ↦
    decide_eq_true (ne_of_mem_of_not_mem hc hdelim)
  rw [cut, List.dropWhile_append_of_pos hall, List.dropWhile_cons_of_neg (by simp),
    List.takeWhile_append_of_pos hall, List.takeWhile_cons_of_neg (by simp), List.append_nil]

/-- A call leaves a NUL behind the token, and behind that what is left. -/
theorem strsepOn_eq (pre : List UInt8) (hnul : 0 ∉ text) (hzero : delim ≠ 0) (tail : List UInt8)
    {left : Option (List UInt8)} (hcut : cut haveStrsep delim text = (word, left)) :
    strsepOn haveStrsep (pre ++ (text ++ 0 :: tail)) pre.length delim =
      some (pre ++ (word ++ 0 :: left.elim tail fun rest ↦ rest ++ 0 :: tail),
        left.map fun _ ↦ (pre ++ (word ++ [0])).length) := by
  by_cases hdelim : delim ∈ text
  · obtain ⟨first, rest, rfl, hfirst⟩ := List.eq_append_cons_of_mem hdelim
    have hnul' : 0 ∉ first := fun h ↦ hnul (List.mem_append_left _ h)
    rw [cut_of_append hfirst] at hcut
    rw [List.append_assoc, List.cons_append, strsepOn]
    cases haveStrsep with
    | true =>
        rw [if_neg (by simp)] at hcut
        cases hcut
        rw [if_pos rfl, strsep_delim pre hnul' hfirst hzero]
        rfl
    | false =>
        rw [if_neg Bool.false_ne_true]
        cases rest with
        | nil =>
            rw [if_pos ⟨rfl, rfl⟩] at hcut
            cases hcut
            rw [List.nil_append, ownStrsep_last pre hnul' hfirst hzero]
            simp
        | cons c rest =>
            have hc : c ≠ 0 := fun h ↦ hnul (h ▸ by simp)
            rw [if_neg (by simp)] at hcut
            cases hcut
            rw [List.cons_append, ownStrsep_delim pre hnul' hfirst hzero hc]
            rfl
  · rw [cut_of_not_mem hdelim] at hcut
    cases hcut
    rw [strsepOn, strsep_end pre hnul hdelim, ownStrsep_end pre hnul hdelim, ite_self]
    rfl

/-- The first delimiter is the last character. -/
def EndsAtDelimiter (delim : UInt8) (text : List UInt8) : Prop :=
  ∃ word, text = word ++ [delim] ∧ delim ∉ word

/-- One call does the same on both platforms. -/
def SameCall (memory : Memory) (stringp : Option ℕ) (delim : UInt8) : Prop :=
  ∃ result, strsepCall true memory stringp delim = some result ∧
    strsepCall false memory stringp delim = some result

theorem cut_of_not_endsAtDelimiter (h : ¬ EndsAtDelimiter delim text) :
    cut false delim text = cut true delim text := by
  by_cases hdelim : delim ∈ text
  · obtain ⟨word, rest, rfl, hword⟩ := List.eq_append_cons_of_mem hdelim
    have hrest : ¬ (false = false ∧ rest = []) := by
      rintro ⟨-, rfl⟩
      exact h ⟨word, rfl, hword⟩
    rw [cut_of_append hword, cut_of_append hword, if_neg hrest, if_neg (by simp)]
  · rw [cut_of_not_mem hdelim, cut_of_not_mem hdelim]

theorem strsepCall_eq (pre : List UInt8) (hnul : 0 ∉ text) (hzero : delim ≠ 0) (tail : List UInt8)
    {left : Option (List UInt8)} (hcut : cut haveStrsep delim text = (word, left)) :
    strsepCall haveStrsep (pre ++ (text ++ 0 :: tail)) (some pre.length) delim =
      some (pre ++ (word ++ 0 :: left.elim tail fun rest ↦ rest ++ 0 :: tail), some pre.length,
        left.map fun _ ↦ (pre ++ (word ++ [0])).length) := by
  rw [strsepCall, strsepOn_eq pre hnul hzero tail hcut]
  rfl

/-- A call does not depend on the platform unless the string ends at its first delimiter. -/
theorem sameCall_iff (hnul : 0 ∉ text) (hzero : delim ≠ 0) (pre tail : List UInt8) :
    SameCall (pre ++ (text ++ 0 :: tail)) (some pre.length) delim ↔
      ¬ EndsAtDelimiter delim text := by
  constructor
  · rintro ⟨result, hlibrary, hown⟩ ⟨word, rfl, hword⟩
    have hcut : cut true delim (word ++ [delim]) = (word, some []) := cut_of_append hword []
    have hcut' : cut false delim (word ++ [delim]) = (word ++ [delim], none) :=
      cut_of_append hword []
    rw [strsepCall_eq pre hnul hzero tail hcut] at hlibrary
    rw [strsepCall_eq pre hnul hzero tail hcut', ← hlibrary] at hown
    simp at hown
  · intro h
    have hcut := cut_of_not_endsAtDelimiter h
    exact ⟨_, strsepCall_eq pre hnul hzero tail rfl, strsepCall_eq pre hnul hzero tail hcut⟩

end Functions

/-! ## The calls of a loop -/

/-- Where a turn of the loop calls `strsep` in a line, and with which delimiter. -/
def turn (delim : UInt8) (line : List UInt8) : Option (List UInt8 × UInt8) :=
  match line.dropWhile isSpace with
  | [] => none
  | c :: text => some (if delim ≠ 0 ∧ c = delim then (text, delim) else (c :: text, 32))

/-- What is left of a line behind the first delimiter at which `strsep` splits it. -/
def restOf (delim : UInt8) (line : List UInt8) : Option (List UInt8) :=
  (turn delim line).bind fun place ↦ (cut true place.2 place.1).2

/-- One of the delimiters at which the line is split is its last character. -/
inductive EndsAtSeparator (delim : UInt8) : List UInt8 → Prop
  | last {line : List UInt8} (h : restOf delim line = some []) : EndsAtSeparator delim line
  | later {line rest : List UInt8} (h : restOf delim line = some rest)
      (hrest : EndsAtSeparator delim rest) : EndsAtSeparator delim line

/-- The word that the loop ends with, and what is left of the line behind it. -/
def nextWord (haveStrsep doFill : Bool) (delim : UInt8) :
    ℕ → Option (List UInt8) → Option (List UInt8) × Option (List UInt8)
  | 0, _ => (none, none)
  | _ + 1, none => (none, none)
  | turns + 1, some line =>
      match turn delim line with
      | none => (none, none)
      | some (text, sep) =>
          let (word, left) := cut haveStrsep sep text
          if doFill = true ∧ lowerText word ∈ fill then nextWord haveStrsep doFill delim turns left
          else (some word, left)

/-- The words of calls one after another, in lower case. -/
def wordsOf (haveStrsep doFill : Bool) (delim : UInt8) (fuel : ℕ) :
    ℕ → Option (List UInt8) → List (Option (List UInt8))
  | 0, _ => []
  | n + 1, left =>
      let (word, left) := nextWord haveStrsep doFill delim fuel left
      word.map lowerText :: wordsOf haveStrsep doFill delim fuel n left

/-- The memory from a pointer on, unless it is NULL, is what is left of a line. -/
inductive Keeps : Memory → Option ℕ → Option (List UInt8) → Prop
  | null (memory) : Keeps memory none none
  | line (past tail) {line} (hnul : 0 ∉ line) :
      Keeps (past ++ (line ++ 0 :: tail)) (some past.length) (some line)

/-- What a call returns shows a word, and what is left of the line. -/
inductive Shows : Argument → Option (List UInt8) → Option (List UInt8) → Prop
  | null (memory) : Shows ⟨memory, none, none⟩ none none
  | last (pre tail) {word} (hword : 0 ∉ word) :
      Shows ⟨pre ++ (word ++ 0 :: tail), some pre.length, none⟩ (some word) none
  | more (pre tail) {word line} (hword : 0 ∉ word) (hnul : 0 ∉ line) :
      Shows ⟨pre ++ (word ++ 0 :: (line ++ 0 :: tail)), some pre.length,
        some (pre ++ (word ++ [0])).length⟩ (some word) (some line)

variable {memory : Memory} {ptr : Option ℕ} {left word : Option (List UInt8)} {result : Argument}

theorem Shows.text (h : Shows result word left) : result.text = some word := by
  cases h with
  | null => rfl
  | last pre tail hword => exact congrArg (Option.map some) (stringAt_append pre hword _)
  | more pre tail hword hnul => exact congrArg (Option.map some) (stringAt_append pre hword _)

theorem Shows.keeps (h : Shows result word left) : Keeps result.memory result.line left := by
  cases h with
  | null => exact .null _
  | last pre tail hword => exact .null _
  | @more pre tail word line hword hnul =>
      have hkeeps := Keeps.line (pre ++ (word ++ [0])) tail hnul
      simpa using hkeeps

/-- The conversion to lower case leaves what is behind the word as it is. -/
theorem Shows.lower {w : List UInt8} (h : Shows result (some w) left) :
    ∃ arg, result.arg = some arg ∧ stringAt result.memory arg = some w ∧
      Shows { result with memory := lowerLoop w.length result.memory arg } (some (lowerText w))
        left := by
  cases h with
  | last pre tail hword =>
      refine ⟨pre.length, rfl, stringAt_append pre hword tail, ?_⟩
      dsimp only
      rw [lowerLoop_append]
      exact .last pre tail (nul_not_mem_lowerText hword)
  | more pre tail hword hnul =>
      refine ⟨pre.length, rfl, stringAt_append pre hword _, ?_⟩
      dsimp only
      rw [lowerLoop_append]
      have hlength : (pre ++ (w ++ [0])).length = (pre ++ (lowerText w ++ [0])).length := by
        simp [lowerText]
      rw [hlength]
      exact .more pre tail (nul_not_mem_lowerText hword) hnul

theorem Shows.arg_eq_none (h : Shows result none left) : result.arg = none := by
  cases h
  rfl

/-- What a call of `strsep` leaves shows what was cut off. -/
theorem Shows.of_cut (pre tail : List UInt8) {w : List UInt8} (hw : 0 ∉ w)
    (hleft : ∀ rest, left = some rest → 0 ∉ rest) :
    Shows ⟨pre ++ (w ++ 0 :: left.elim tail fun rest ↦ rest ++ 0 :: tail), some pre.length,
      left.map fun _ ↦ (pre ++ (w ++ [0])).length⟩ (some w) left := by
  cases left with
  | none => exact .last pre tail hw
  | some rest => exact .more pre tail hw (hleft rest rfl)

section Loop

variable {haveStrsep doFill : Bool} {fuel : ℕ} {fillWords : Heap ℕ (List UInt8) Unit}
  {delim sep : UInt8} {line text : List UInt8}

theorem splitLoopOn_blank (hturn : turn delim line = none) (past tail : List UInt8) (turns : ℕ) :
    splitLoopOn haveStrsep fuel fillWords doFill delim (turns + 1) (past ++ (line ++ 0 :: tail))
      (some past.length) = some ⟨past ++ (line ++ 0 :: tail), none, none⟩ := by
  have hblank : ∀ c ∈ line, isSpace c = true := by
    cases hbody : line.dropWhile isSpace with
    | nil => exact List.dropWhile_eq_nil_iff.mp hbody
    | cons c text => simp [turn, hbody] at hturn
  rw [splitLoopOn, skipSpaces_blank past hblank]
  rfl

variable (haveStrsep doFill fuel fillWords) in
/-- A turn of the loop, where there is a word. -/
theorem splitLoopOn_turn (hnul : 0 ∉ line) (hturn : turn delim line = some (text, sep))
    (past tail : List UInt8) :
    0 ∉ text ∧ sep ≠ 0 ∧
      ∃ pre, past ++ (line ++ 0 :: tail) = pre ++ (text ++ 0 :: tail) ∧ ∀ turns,
        splitLoopOn haveStrsep fuel fillWords doFill delim (turns + 1) (past ++ (line ++ 0 :: tail))
          (some past.length) = (do
            let (memory, rest) ← strsepOn haveStrsep (pre ++ (text ++ 0 :: tail)) pre.length sep
            let word ← stringAt memory pre.length
            let filling ← if doFill then fillWord fuel fillWords word else some false
            if filling then splitLoopOn haveStrsep fuel fillWords doFill delim turns memory rest
            else some ⟨memory, some pre.length, rest⟩) := by
  have hsplit := List.takeWhile_append_dropWhile (p := isSpace) (l := line)
  have hgap : ∀ c ∈ line.takeWhile isSpace, isSpace c = true := fun c hc ↦ List.mem_takeWhile_imp hc
  generalize line.takeWhile isSpace = gap at *
  unfold turn at hturn
  cases hbody : line.dropWhile isSpace with
  | nil => rw [hbody] at hturn; cases hturn
  | cons c body =>
      have hc : isSpace c = false := by
        have hhead := List.head?_dropWhile_not isSpace line
        rwa [hbody] at hhead
      rw [hbody] at hsplit hturn
      subst hsplit
      have hzero : c ≠ 0 := fun h ↦ hnul (h ▸ by simp)
      have hskip := skipSpaces_word past hgap hc hzero (body ++ 0 :: tail)
      rw [List.append_assoc, List.cons_append]
      have hchar : (past ++ (gap ++ c :: (body ++ 0 :: tail)))[(past ++ gap).length]? = some c := by
        simp
      dsimp only at hturn
      split_ifs at hturn with hdelimited
      · cases hturn
        refine ⟨fun h ↦ hnul (by simp [h]), hdelimited.1, past ++ gap ++ [c], by simp,
          fun turns ↦ ?_⟩
        rw [splitLoopOn, hskip, Option.bind_eq_bind, Option.bind_some]
        dsimp only
        rw [hchar, Option.bind_eq_bind, Option.bind_some, if_pos hdelimited, if_pos hdelimited]
        have hlength : (past ++ gap ++ [c]).length = (past ++ gap).length + 1 := List.length_append
        have hmemory : past ++ gap ++ [c] ++ (text ++ 0 :: tail) =
            past ++ (gap ++ c :: (text ++ 0 :: tail)) := by simp
        rw [hlength, hmemory]
      · cases hturn
        refine ⟨fun h ↦ hnul (List.mem_append_right _ h), by decide, past ++ gap, by simp,
          fun turns ↦ ?_⟩
        rw [splitLoopOn, hskip, Option.bind_eq_bind, Option.bind_some]
        dsimp only
        rw [hchar, Option.bind_eq_bind, Option.bind_some, if_neg hdelimited, if_neg hdelimited]
        rw [List.append_assoc past, List.cons_append]

theorem nul_not_mem_cut {w : List UInt8} (hcut : cut haveStrsep sep text = (w, left))
    (hnul : 0 ∉ text) : 0 ∉ w ∧ ∀ rest, left = some rest → 0 ∉ rest := by
  by_cases hsep : sep ∈ text
  · obtain ⟨first, rest, rfl, hfirst⟩ := List.eq_append_cons_of_mem hsep
    rw [cut_of_append hfirst] at hcut
    split_ifs at hcut
    · cases hcut
      exact ⟨hnul, fun rest h ↦ nomatch h⟩
    · cases hcut
      refine ⟨fun h ↦ hnul (List.mem_append_left _ h), ?_⟩
      rintro rest ⟨⟩
      exact fun h ↦ hnul (by simp [h])
  · rw [cut_of_not_mem hsep] at hcut
    cases hcut
    exact ⟨hnul, fun rest h ↦ nomatch h⟩

theorem length_of_turn (hturn : turn delim line = some (text, sep)) :
    text.length ≤ line.length ∧ 0 < line.length := by
  have hle := (List.dropWhile_sublist isSpace (l := line)).length_le
  unfold turn at hturn
  cases hbody : line.dropWhile isSpace with
  | nil => rw [hbody] at hturn; cases hturn
  | cons c body =>
      rw [hbody] at hturn
      rw [hbody, List.length_cons] at hle
      dsimp only at hturn
      split_ifs at hturn <;> cases hturn
      · omega
      · exact ⟨hle, by omega⟩

/-- A turn leaves less than there was. -/
theorem length_left_lt {w : List UInt8} (hturn : turn delim line = some (text, sep))
    (hcut : cut haveStrsep sep text = (w, left)) : (left.getD []).length < line.length := by
  obtain ⟨hle, hpos⟩ := length_of_turn hturn
  by_cases hsep : sep ∈ text
  · obtain ⟨first, rest, rfl, hfirst⟩ := List.eq_append_cons_of_mem hsep
    rw [cut_of_append hfirst] at hcut
    rw [List.length_append, List.length_cons] at hle
    split_ifs at hcut
    · cases hcut
      exact hpos
    · cases hcut
      rw [Option.getD_some]
      omega
  · rw [cut_of_not_mem hsep] at hcut
    cases hcut
    exact hpos

/-- The tree finds the words of the table. -/
def Finds (fuel : ℕ) (fillWords : Heap ℕ (List UInt8) Unit) : Prop :=
  ∀ word, 0 ∉ word → fillWord fuel fillWords word = some (decide (lowerText word ∈ fill))

theorem nextWord_nil (turns : ℕ) :
    nextWord haveStrsep doFill delim turns (some []) = (none, none) := by
  cases turns <;> rfl

theorem nextWord_none (turns : ℕ) : nextWord haveStrsep doFill delim turns none = (none, none) := by
  cases turns <;> rfl

variable (doFill) in
/-- A turn of the loop, with what is cut off. -/
theorem splitLoopOn_cut (hfinds : Finds fuel fillWords) (hnul : 0 ∉ line)
    (hturn : turn delim line = some (text, sep)) {w : List UInt8}
    (hcut : cut haveStrsep sep text = (w, left)) (past tail : List UInt8) (turns : ℕ) :
    ∃ result, Shows result (some w) left ∧
      splitLoopOn haveStrsep fuel fillWords doFill delim (turns + 1) (past ++ (line ++ 0 :: tail))
        (some past.length) =
          if doFill = true ∧ lowerText w ∈ fill then
            splitLoopOn haveStrsep fuel fillWords doFill delim turns result.memory result.line
          else some result := by
  obtain ⟨hnul', hsep, pre, -, hrun⟩ :=
    splitLoopOn_turn haveStrsep doFill fuel fillWords hnul hturn past tail
  obtain ⟨hw, hrest⟩ := nul_not_mem_cut hcut hnul'
  refine ⟨_, Shows.of_cut pre tail hw hrest, ?_⟩
  rw [hrun turns, strsepOn_eq pre hnul' hsep tail hcut, Option.bind_eq_bind, Option.bind_some]
  dsimp only
  rw [stringAt_append pre hw, Option.bind_eq_bind, Option.bind_some]
  cases doFill with
  | true => simp [hfinds w hw]
  | false => simp

variable (haveStrsep doFill delim) in
/-- The loop shows the next word. -/
theorem splitLoopOn_shows (hfinds : Finds fuel fillWords) {turns : ℕ} (h : Keeps memory ptr left)
    (hturns : (left.getD []).length < turns) :
    ∃ result, splitLoopOn haveStrsep fuel fillWords doFill delim turns memory ptr = some result ∧
      Shows result (nextWord haveStrsep doFill delim turns left).1
        (nextWord haveStrsep doFill delim turns left).2 := by
  induction turns generalizing memory ptr left with
  | zero => cases hturns
  | succ turns ih =>
      cases h with
      | null => exact ⟨_, rfl, .null _⟩
      | @line past tail line hnul =>
          rw [nextWord]
          cases hturn : turn delim line with
          | none => exact ⟨_, splitLoopOn_blank hturn past tail turns, .null _⟩
          | some place =>
              obtain ⟨text, sep⟩ := place
              dsimp only
              cases hcut : cut haveStrsep sep text with
              | mk w left =>
                  obtain ⟨result, hshows, hrun⟩ :=
                    splitLoopOn_cut doFill hfinds hnul hturn hcut past tail turns
                  rw [hrun]
                  split_ifs with hfill
                  · have hless := length_left_lt hturn hcut
                    exact ih hshows.keeps (hless.trans_le (Nat.lt_succ_iff.mp hturns))
                  · exact ⟨result, rfl, hshows⟩

variable (haveStrsep doFill delim) in
/-- A call shows the next word in lower case. -/
theorem getArgumentOn_shows (hfinds : Finds fuel fillWords) (h : Keeps memory ptr left)
    (hfuel : (left.getD []).length < fuel) :
    ∃ result, getArgumentOn haveStrsep fuel fillWords doFill delim memory ptr = some result ∧
      Shows result ((nextWord haveStrsep doFill delim fuel left).1.map lowerText)
        (nextWord haveStrsep doFill delim fuel left).2 := by
  obtain ⟨split, hsplit, hshows⟩ :=
    splitLoopOn_shows haveStrsep doFill delim hfinds h hfuel
  cases h with
  | null =>
      rw [nextWord_none]
      exact ⟨_, rfl, .null _⟩
  | @line past tail line hnul =>
      cases line with
      | nil =>
          have hchar : (past ++ ([] ++ 0 :: tail))[past.length]? = some 0 := by simp
          rw [nextWord_nil, getArgumentOn, hchar]
          exact ⟨_, rfl, .null _⟩
      | cons c line =>
          have hchar : (past ++ (c :: line ++ 0 :: tail))[past.length]? = some c := by simp
          have hc : c ≠ 0 := fun h ↦ hnul (h ▸ List.mem_cons_self)
          rw [getArgumentOn, hchar, Option.bind_eq_bind, Option.bind_some, if_neg hc, hsplit,
            Option.bind_eq_bind, Option.bind_some]
          cases hword : (nextWord haveStrsep doFill delim fuel (some (c :: line))).1 with
          | none =>
              rw [hword] at hshows
              rw [hshows.arg_eq_none]
              exact ⟨split, rfl, hshows⟩
          | some w =>
              rw [hword] at hshows
              obtain ⟨arg, harg, hstring, hlower⟩ := hshows.lower
              rw [harg] at hlower ⊢
              dsimp only
              rw [hstring]
              exact ⟨_, rfl, hlower⟩

variable (haveStrsep doFill delim) in
theorem length_nextWord_le (turns : ℕ) (left : Option (List UInt8)) :
    ((nextWord haveStrsep doFill delim turns left).2.getD []).length ≤ (left.getD []).length := by
  induction turns generalizing left with
  | zero => exact Nat.zero_le _
  | succ turns ih =>
      cases left with
      | none => exact Nat.zero_le _
      | some line =>
          rw [nextWord]
          cases hturn : turn delim line with
          | none => exact Nat.zero_le _
          | some place =>
              obtain ⟨text, sep⟩ := place
              have hcut : cut haveStrsep sep text = ((cut haveStrsep sep text).1, _) := rfl
              have hless := length_left_lt hturn hcut
              dsimp only
              split_ifs
              · exact (ih _).trans hless.le
              · exact hless.le

variable (haveStrsep doFill delim) in
/-- Calls one after another yield the words. -/
theorem tokens_eq (hfinds : Finds fuel fillWords) (h : Keeps memory ptr left)
    (hfuel : (left.getD []).length < fuel) (n : ℕ) :
    tokens (getArgumentOn haveStrsep fuel fillWords doFill delim) n memory ptr =
      some (wordsOf haveStrsep doFill delim fuel n left) := by
  induction n generalizing memory ptr left with
  | zero => rfl
  | succ n ih =>
      obtain ⟨result, hresult, hshows⟩ :=
        getArgumentOn_shows haveStrsep doFill delim hfinds h hfuel
      have hless := length_nextWord_le haveStrsep doFill delim fuel left
      rw [tokens, hresult, Option.bind_eq_bind, Option.bind_some, hshows.text, Option.bind_eq_bind,
        Option.bind_some, ih hshows.keeps (hless.trans_lt hfuel)]
      rfl

/-! ## Lines that end at a separator -/

theorem exists_of_restOf {rest : List UInt8} (h : restOf delim line = some rest) :
    ∃ w sep, turn delim line = some (w ++ sep :: rest, sep) ∧ sep ∉ w := by
  obtain ⟨⟨text, sep⟩, hturn, hcut⟩ := Option.bind_eq_some_iff.mp h
  dsimp only at hcut
  by_cases hsep : sep ∈ text
  · obtain ⟨w, behind, rfl, hw⟩ := List.eq_append_cons_of_mem hsep
    rw [cut_of_append hw, if_neg (by simp)] at hcut
    obtain rfl := Option.some.inj hcut
    exact ⟨w, sep, hturn, hw⟩
  · rw [cut_of_not_mem hsep] at hcut
    cases hcut

theorem restOf_of_turn (hturn : turn delim line = some (text, sep)) :
    restOf delim line = (cut true sep text).2 := by
  rw [restOf, hturn]
  rfl

theorem not_endsAtSeparator_nil : ¬ EndsAtSeparator delim [] := by
  intro h
  cases h with
  | last h => cases h
  | later h => cases h

variable (doFill) in
/-- The next word is the same on both platforms, and nothing that is left ends at a separator. -/
theorem nextWord_agree (h : ∀ line, left = some line → ¬ EndsAtSeparator delim line) (turns : ℕ) :
    nextWord false doFill delim turns left = nextWord true doFill delim turns left ∧
      ∀ rest, (nextWord true doFill delim turns left).2 = some rest →
        ¬ EndsAtSeparator delim rest := by
  induction turns generalizing left with
  | zero => exact ⟨rfl, fun rest h ↦ nomatch h⟩
  | succ turns ih =>
      cases left with
      | none => exact ⟨rfl, fun rest h ↦ nomatch h⟩
      | some line =>
          have hline := h line rfl
          rw [nextWord, nextWord]
          cases hturn : turn delim line with
          | none => exact ⟨rfl, fun rest h ↦ nomatch h⟩
          | some place =>
              obtain ⟨text, sep⟩ := place
              dsimp only
              have hrest := restOf_of_turn hturn
              have hends : ¬ EndsAtDelimiter sep text := by
                rintro ⟨w, rfl, hw⟩
                rw [cut_of_append hw] at hrest
                exact hline (.last hrest)
              have hleft : ∀ rest, (cut true sep text).2 = some rest →
                  ¬ EndsAtSeparator delim rest :=
                fun rest heq hends ↦ hline (.later (hrest.trans heq) hends)
              rw [cut_of_not_endsAtDelimiter hends]
              split_ifs
              · exact ih hleft
              · exact ⟨rfl, hleft⟩

theorem wordsOf_agree (h : ∀ line, left = some line → ¬ EndsAtSeparator delim line) (n : ℕ) :
    wordsOf false doFill delim fuel n left = wordsOf true doFill delim fuel n left := by
  induction n generalizing left with
  | zero => rfl
  | succ n ih =>
      obtain ⟨hword, hleft⟩ := nextWord_agree doFill h fuel
      rw [wordsOf, wordsOf, hword]
      dsimp only
      rw [ih hleft]

theorem nextWord_turn {w : List UInt8} (hturn : turn delim line = some (text, sep))
    (hcut : cut haveStrsep sep text = (w, left)) (turns : ℕ) :
    nextWord haveStrsep doFill delim (turns + 1) (some line) =
      if doFill = true ∧ lowerText w ∈ fill then nextWord haveStrsep doFill delim turns left
      else (some w, left) := by
  rw [nextWord, hturn]
  dsimp only
  rw [hcut]

/-- More turns than there are characters change nothing. -/
theorem nextWord_succ {turns : ℕ} (hturns : (left.getD []).length < turns) :
    nextWord haveStrsep doFill delim (turns + 1) left =
      nextWord haveStrsep doFill delim turns left := by
  induction turns generalizing left with
  | zero => cases hturns
  | succ turns ih =>
      cases left with
      | none => rfl
      | some line =>
          cases hturn : turn delim line with
          | none => rw [nextWord, nextWord, hturn]
          | some place =>
              obtain ⟨text, sep⟩ := place
              cases hcut : cut haveStrsep sep text with
              | mk w left =>
                  have hless := length_left_lt hturn hcut
                  rw [nextWord_turn hturn hcut, nextWord_turn hturn hcut,
                    ih (hless.trans_le (Nat.lt_succ_iff.mp hturns))]

/-- No fill word is another one with one more character. -/
theorem not_mem_fill_of_concat {w : List UInt8} {c : UInt8} (h : lowerText w ∈ fill) :
    lowerText (w ++ [c]) ∉ fill := by
  have hfill : ∀ word ∈ fill, ∀ other ∈ fill, other.dropLast ≠ word := by decide
  intro hmore
  apply hfill _ h _ hmore
  simp [lowerText]

variable (doFill) in
/-- Behind a turn that the platforms have in common the words are those of what is left. -/
theorem wordsOf_turn {w rest : List UInt8} (hturn : turn delim line = some (text, sep))
    (hcut : cut haveStrsep sep text = (w, some rest)) (hfuel : line.length < fuel) (n : ℕ) :
    if doFill = true ∧ lowerText w ∈ fill then
      wordsOf haveStrsep doFill delim fuel n (some line) =
        wordsOf haveStrsep doFill delim fuel n (some rest)
    else wordsOf haveStrsep doFill delim fuel (n + 1) (some line) =
      some (lowerText w) :: wordsOf haveStrsep doFill delim fuel n (some rest) := by
  have hless : rest.length < line.length := length_left_lt hturn hcut
  obtain ⟨turns, rfl⟩ := Nat.exists_eq_add_one_of_ne_zero (Nat.ne_zero_of_lt hfuel)
  split_ifs with hfill
  · cases n with
    | zero => rfl
    | succ n =>
        have hturns : ((some rest).getD []).length < turns :=
          hless.trans_le (Nat.lt_succ_iff.mp hfuel)
        rw [wordsOf, wordsOf, nextWord_turn hturn hcut, if_pos hfill, nextWord_succ hturns]
  · rw [wordsOf, nextWord_turn hturn hcut, if_neg hfill]
    rfl

variable (doFill) in
/-- Where the line ends at a separator, the words differ. -/
theorem exists_wordsOf_ne (h : EndsAtSeparator delim line) (hfuel : line.length < fuel) :
    ∃ n, wordsOf false doFill delim fuel n (some line) ≠
      wordsOf true doFill delim fuel n (some line) := by
  induction h with
  | @last line h =>
      obtain ⟨w, sep, hturn, hw⟩ := exists_of_restOf h
      obtain ⟨turns, rfl⟩ := Nat.exists_eq_add_one_of_ne_zero (Nat.ne_zero_of_lt hfuel)
      have hcut : cut true sep (w ++ [sep]) = (w, some []) := cut_of_append hw []
      have hcut' : cut false sep (w ++ [sep]) = (w ++ [sep], none) := cut_of_append hw []
      have hlower : lowerText (w ++ [sep]) ≠ lowerText w := fun heq ↦ by
        simpa [lowerText] using congrArg List.length heq
      refine ⟨1, ?_⟩
      simp only [wordsOf, nextWord_turn hturn hcut, nextWord_turn hturn hcut', nextWord_none,
        nextWord_nil]
      split_ifs with hmore hfew hfew
      · exact absurd hmore.2 (not_mem_fill_of_concat hfew.2)
      · simp
      · simp
      · simpa using hlower
  | @later line rest h hrest ih =>
      obtain ⟨w, sep, hturn, hw⟩ := exists_of_restOf h
      have hne : ¬ (false = false ∧ rest = []) := by
        rintro ⟨-, rfl⟩
        exact not_endsAtSeparator_nil hrest
      have hcut : cut true sep (w ++ sep :: rest) = (w, some rest) := cut_of_append hw rest
      have hcut' : cut false sep (w ++ sep :: rest) = (w, some rest) :=
        (cut_of_append hw rest).trans (if_neg hne)
      have hless : rest.length < line.length := length_left_lt hturn hcut
      obtain ⟨n, hn⟩ := ih (hless.trans hfuel)
      have hwords := wordsOf_turn doFill hturn hcut hfuel n
      have hwords' := wordsOf_turn doFill hturn hcut' hfuel n
      split_ifs at hwords hwords'
      · exact ⟨n, fun heq ↦ hn (hwords'.symm.trans (heq.trans hwords))⟩
      · refine ⟨n + 1, fun heq ↦ hn ?_⟩
        rw [hwords, hwords'] at heq
        exact (List.cons.inj heq).2

end Loop

/-! ## The platforms -/

section Platforms

variable {text : List UInt8} {fuel : ℕ} {fillWords : Heap ℕ (List UInt8) Unit} {doFill : Bool}
  {delim : UInt8}

/-- One call does the same on both platforms, of NULL and of the string wherever it stands. -/
def SameCalls (delim : UInt8) (text : List UInt8) : Prop :=
  (∀ memory, SameCall memory none delim) ∧
    ∀ pre tail, SameCall (pre ++ (text ++ 0 :: tail)) (some pre.length) delim

theorem sameCalls_iff (hnul : 0 ∉ text) (hzero : delim ≠ 0) :
    SameCalls delim text ↔ ¬ EndsAtDelimiter delim text := by
  constructor
  · rintro ⟨-, h⟩
    exact (sameCall_iff hnul hzero [] []).mp (h [] [])
  · intro h
    exact ⟨fun memory ↦ ⟨_, rfl, rfl⟩, fun pre tail ↦ (sameCall_iff hnul hzero pre tail).mpr h⟩

/-- Calls of `get_argument_common` yield the same words on both platforms, with and without
`strsep`. -/
def SameWords (fuel : ℕ) (fillWords : Heap ℕ (List UInt8) Unit) (doFill : Bool) (delim : UInt8)
    (text : List UInt8) : Prop :=
  ∀ n, ∃ words,
    tokens (fun memory line ↦ getArgumentCommon fuel fillWords memory line doFill delim) n
      (text ++ [0]) (some 0) = some words ∧
    tokens (getArgumentOn false fuel fillWords doFill delim) n (text ++ [0]) (some 0) = some words

theorem sameWords_iff (hfinds : Finds fuel fillWords) (hnul : 0 ∉ text)
    (hfuel : text.length < fuel) :
    SameWords fuel fillWords doFill delim text ↔ ¬ EndsAtSeparator delim text := by
  have hkeeps : Keeps (text ++ [0]) (some 0) (some text) := .line [] [] hnul
  have hlibrary := tokens_eq true doFill delim hfinds hkeeps hfuel
  have hown := tokens_eq false doFill delim hfinds hkeeps hfuel
  have hcommon : getArgumentOn true fuel fillWords doFill delim =
      fun memory line ↦ getArgumentCommon fuel fillWords memory line doFill delim := by
    funext memory line
    exact getArgumentOn_true fuel fillWords doFill delim memory line
  rw [hcommon] at hlibrary
  constructor
  · intro h hends
    obtain ⟨n, hne⟩ := exists_wordsOf_ne doFill hends hfuel
    obtain ⟨words, hwords, hwords'⟩ := h n
    rw [hlibrary] at hwords
    rw [hown] at hwords'
    exact hne (Option.some.inj (hwords'.trans hwords.symm))
  · intro hends n
    have hagree : wordsOf false doFill delim fuel n (some text) =
        wordsOf true doFill delim fuel n (some text) := by
      apply wordsOf_agree
      rintro line ⟨⟩
      exact hends
    exact ⟨_, hlibrary n, (hown n).trans (congrArg some hagree)⟩

/-- One call does the same on both platforms unless the string ends at its first delimiter, and
calls of `get_argument_common` yield the same words, as many as one likes, unless the line ends at a
separator. -/
theorem platforms_agree_iff (hnul : 0 ∉ text) (htable : 8 ≤ fuel) (hfuel : text.length < fuel) :
    (∀ delim, delim ≠ 0 → (SameCalls delim text ↔ ¬ EndsAtDelimiter delim text)) ∧
    ∃ fillWords, initializeFillWords fuel = some fillWords ∧ ∀ doFill delim,
      SameWords fuel fillWords doFill delim text ↔ ¬ EndsAtSeparator delim text := by
  obtain ⟨fillWords, hinit, htree⟩ := initializeFillWords_tree htable
  exact ⟨fun delim hzero ↦ sameCalls_iff hnul hzero, fillWords, hinit, fun doFill delim ↦
    sameWords_iff (fun word hword ↦ htree word hword fuel htable) hnul hfuel⟩

/-- `get sword`, at blanks. -/
theorem platforms_agree_sword :
    let text : List UInt8 := [103, 101, 116, 32, 115, 119, 111, 114, 100]
    (∀ delim, delim ≠ 0 → (SameCalls delim text ↔ ¬ EndsAtDelimiter delim text)) ∧
    ∃ fillWords, initializeFillWords 10 = some fillWords ∧ ∀ doFill delim,
      SameWords 10 fillWords doFill delim text ↔ ¬ EndsAtSeparator delim text :=
  platforms_agree_iff (by decide) (by decide) (by decide)

/-- Of `sword ` with a blank at the end, the own function returns the blank with the word, and NULL
instead of a pointer to the NUL. -/
theorem ownStrsep_sword : let text : List UInt8 := [115, 119, 111, 114, 100, 32]
    strsepCall true (text ++ [0]) (some 0) 32 =
      some ([115, 119, 111, 114, 100, 0, 0], some 0, some 6) ∧
    strsepCall false (text ++ [0]) (some 0) 32 = some (text ++ [0], some 0, none) ∧
    ¬ SameCall (text ++ [0]) (some 0) 32 ∧
    ∀ fillWords, ¬ SameWords 10 fillWords false 32 text := by
  have hlibrary : strsepCall true ([115, 119, 111, 114, 100, 32] ++ [0]) (some 0) 32 =
      some ([115, 119, 111, 114, 100, 0, 0], some 0, some 6) := by decide
  have hown : strsepCall false ([115, 119, 111, 114, 100, 32] ++ [0]) (some 0) 32 =
      some ([115, 119, 111, 114, 100, 32, 0], some 0, none) := by decide
  refine ⟨hlibrary, hown, ?_, fun fillWords h ↦ ?_⟩
  · rintro ⟨result, h, h'⟩
    rw [hlibrary] at h
    rw [hown, ← h] at h'
    exact absurd h' (by decide)
  · have hword : tokens (fun memory line ↦ getArgumentCommon 10 fillWords memory line false 32) 1
        ([115, 119, 111, 114, 100, 32] ++ [0]) (some 0) =
        some [some [115, 119, 111, 114, 100]] := rfl
    have hword' : tokens (getArgumentOn false 10 fillWords false 32) 1
        ([115, 119, 111, 114, 100, 32] ++ [0]) (some 0) =
        some [some [115, 119, 111, 114, 100, 32]] := rfl
    obtain ⟨words, h, h'⟩ := h 1
    rw [hword] at h
    rw [hword', ← h] at h'
    exact absurd h' (by decide)

end Platforms

end HavokMud.Commands
