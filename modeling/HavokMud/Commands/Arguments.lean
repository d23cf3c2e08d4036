import HavokMud.BTree.Filling
import HavokMud.BTree.Search
import HavokMud.Sequence.Runs
import Mathlib.Data.List.GetD

/-!
# The arguments of a command

`get_argument` and its siblings cut the words of a line off one after another, writing a NUL behind
each, and return what is left of the line.  `get_argument` passes over the fill words.  Memory ends
with the NUL of the line, so that to read behind it is to fail.
-/

namespace HavokMud.Commands

open BTree SearchTree Sequence

/-- The bytes of a line with its NUL.  A `char *` into it is an index or NULL. -/
abbrev Memory :=
  List UInt8

/-! ## The C library -/

/-- `isspace` of the C locale. -/
def isSpace (c : UInt8) : Bool :=
  c = 32 ∨ 9 ≤ c ∧ c ≤ 13

/-- The string that memory begins with. -/
def cstring : Memory → Option (List UInt8)
  | [] => none
  | c :: memory => if c = 0 then some [] else (cstring memory).map (c :: ·)

/-- The string at an index. -/
def stringAt (memory : Memory) (string : ℕ) : Option (List UInt8) :=
  cstring (memory.drop string)

/-- Where the delimiter stands in the string that memory begins with. -/
def findDelim (delim : UInt8) : Memory → ℕ → Option (Option ℕ)
  | [], _ => none
  | c :: memory, i =>
      if c = 0 then some none
      else if c = delim then some (some i)
      else findDelim delim memory (i + 1)

/-- `strsep` with one delimiter.  The token that it returns is at the old index. -/
def strsep (memory : Memory) (line : ℕ) (delim : UInt8) : Option (Memory × Option ℕ) := do
  match ← findDelim delim (memory.drop line) line with
  | none => some (memory, none)
  | some i => some (memory.set i 0, some (i + 1))

/-! ## The functions of the repository -/

/-- The loop of `skip_spaces`. -/
def skipLoop : Memory → ℕ → Option (Option ℕ)
  | [], _ => none
  | c :: memory, i =>
      if c ≠ 0 ∧ isSpace c = true then skipLoop memory (i + 1)
      else some (if c = 0 then none else some i)

/-- `skip_spaces`. -/
def skipSpaces (memory : Memory) (string : ℕ) : Option (Option ℕ) :=
  skipLoop (memory.drop string) string

/-- The table of fill words. -/
def fill : List (List UInt8) :=
  [[105, 110], [102, 114, 111, 109], [119, 105, 116, 104], [116, 104, 101], [111, 110], [97, 116],
    [116, 111], [10]]

/-- The items for the table, not on a tree yet. -/
def fillItems : Heap ℕ (List UInt8) Unit where
  left _ := none
  right _ := none
  parent _ := none
  key i := fill.getD i []
  btree _ := none
  visited _ := 0
  root _ := none

/-- `initializeFillWords`. -/
def initializeFillWords (fuel : ℕ) : Option (Heap ℕ (List UInt8) Unit) := do
  let h ← addAll keyCompareString fuel () false (List.range fill.length) fillItems
  balancedBTreeAdd keyCompareString fuel h () none true

/-- `fill_word`. -/
def fillWord (fuel : ℕ) (fillWords : Heap ℕ (List UInt8) Unit) (argument : List UInt8) :
    Option Bool := do
  let item ← balancedBTreeFind keyCompareString fillWords fuel () argument
  some item.isSome

/-- What `get_argument_common` leaves: the memory, the argument and the rest of the line. -/
structure Argument where
  memory : Memory
  arg : Option ℕ
  line : Option ℕ

/-- The loop that splits off the first argument.  A NUL as the delimiter is none. -/
def splitLoop (fuel : ℕ) (fillWords : Heap ℕ (List UInt8) Unit) (doFill : Bool) (delim : UInt8) :
    ℕ → Memory → Option ℕ → Option Argument
  | 0, _, _ => none
  | _ + 1, memory, none => some ⟨memory, none, none⟩
  | turns + 1, memory, some line => do
      match ← skipSpaces memory line with
      | none => some ⟨memory, none, none⟩
      | some line =>
          let c ← memory[line]?
          let delimited := delim ≠ 0 ∧ c = delim
          let arg := if delimited then line + 1 else line
          let (memory, rest) ← strsep memory arg (if delimited then delim else 32)
          let word ← stringAt memory arg
          let filling ← if doFill then fillWord fuel fillWords word else some false
          if filling then splitLoop fuel fillWords doFill delim turns memory rest
          else some ⟨memory, some arg, rest⟩

/-- The loop that converts an argument to lower case. -/
def lowerLoop : ℕ → Memory → ℕ → Memory
  | 0, memory, _ => memory
  | length + 1, memory, i => lowerLoop length (memory.modify i toLower) (i + 1)

/-- `get_argument_common`. -/
def getArgumentCommon (fuel : ℕ) (fillWords : Heap ℕ (List UInt8) Unit) (memory : Memory)
    (lineIn : Option ℕ) (doFill : Bool) (delim : UInt8) : Option Argument := do
  match lineIn with
  | none => some ⟨memory, none, none⟩
  | some line =>
      let c ← memory[line]?
      if c = 0 then some ⟨memory, none, none⟩
      else
        let split ← splitLoop fuel fillWords doFill delim fuel memory (some line)
        match split.arg with
        | none => some split
        | some arg =>
            let word ← stringAt split.memory arg
            some { split with memory := lowerLoop word.length split.memory arg }

section Calls

variable (fuel : ℕ) (fillWords : Heap ℕ (List UInt8) Unit) (memory : Memory) (lineIn : Option ℕ)

/-- `get_argument`. -/
def getArgument : Option Argument :=
  getArgumentCommon fuel fillWords memory lineIn true 0

/-- `get_argument_nofill`. -/
def getArgumentNofill : Option Argument :=
  getArgumentCommon fuel fillWords memory lineIn false 0

/-- `get_argument_delim`. -/
def getArgumentDelim (delim : UInt8) : Option Argument :=
  getArgumentCommon fuel fillWords memory lineIn true delim

end Calls

section Functions

variable {memory pre line word gap tail : List UInt8} {c delim : UInt8}

theorem ne_zero_of_isSpace (hc : isSpace c = true) : c ≠ 0 := by
  rintro rfl
  cases hc

theorem cstring_append (hword : 0 ∉ word) (tail : List UInt8) :
    cstring (word ++ 0 :: tail) = some word := by
  induction word with
  | nil => rfl
  | cons c word ih =>
      obtain ⟨hc, hword⟩ := not_or.mp (mt List.mem_cons.mpr hword)
      rw [List.cons_append, cstring, if_neg fun h ↦ hc h.symm, ih hword]
      rfl

theorem stringAt_append (pre : List UInt8) (hword : 0 ∉ word) (tail : List UInt8) :
    stringAt (pre ++ (word ++ 0 :: tail)) pre.length = some word := by
  rw [stringAt, List.drop_left, cstring_append hword]

theorem skipLoop_append (hgap : ∀ c ∈ gap, isSpace c = true) (memory : Memory) (i : ℕ) :
    skipLoop (gap ++ memory) i = skipLoop memory (i + gap.length) := by
  induction gap generalizing i with
  | nil => rfl
  | cons c gap ih =>
      obtain ⟨hc, hgap⟩ := List.forall_mem_cons.mp hgap
      rw [List.cons_append, skipLoop, if_pos ⟨ne_zero_of_isSpace hc, hc⟩, ih hgap,
        List.length_cons, Nat.add_assoc, Nat.add_comm 1]

theorem skipSpaces_blank (pre : List UInt8) (hline : ∀ c ∈ line, isSpace c = true)
    (tail : List UInt8) : skipSpaces (pre ++ (line ++ 0 :: tail)) pre.length = some none := by
  rw [skipSpaces, List.drop_left, skipLoop_append hline]
  rfl

theorem skipSpaces_word (pre : List UInt8) (hgap : ∀ c ∈ gap, isSpace c = true)
    (hc : isSpace c = false) (hzero : c ≠ 0) (tail : List UInt8) :
    skipSpaces (pre ++ (gap ++ c :: tail)) pre.length = some (some (pre ++ gap).length) := by
  rw [skipSpaces, List.drop_left, skipLoop_append hgap, List.length_append]
  simp [skipLoop, hc, hzero]

theorem findDelim_end (hword : 0 ∉ word) (hdelim : delim ∉ word) (tail : List UInt8) (i : ℕ) :
    findDelim delim (word ++ 0 :: tail) i = some none := by
  induction word generalizing i with
  | nil => rfl
  | cons c word ih =>
      obtain ⟨hc, hword⟩ := not_or.mp (mt List.mem_cons.mpr hword)
      obtain ⟨hd, hdelim⟩ := not_or.mp (mt List.mem_cons.mpr hdelim)
      rw [List.cons_append, findDelim, if_neg fun h ↦ hc h.symm, if_neg fun h ↦ hd h.symm,
        ih hword hdelim]

theorem findDelim_delim (hword : 0 ∉ word) (hdelim : delim ∉ word) (hzero : delim ≠ 0)
    (tail : List UInt8) (i : ℕ) :
    findDelim delim (word ++ delim :: tail) i = some (some (i + word.length)) := by
  induction word generalizing i with
  | nil => simp [findDelim, hzero]
  | cons c word ih =>
      obtain ⟨hc, hword⟩ := not_or.mp (mt List.mem_cons.mpr hword)
      obtain ⟨hd, hdelim⟩ := not_or.mp (mt List.mem_cons.mpr hdelim)
      rw [List.cons_append, findDelim, if_neg fun h ↦ hc h.symm, if_neg fun h ↦ hd h.symm,
        ih hword hdelim, List.length_cons, Nat.add_assoc, Nat.add_comm 1]

theorem strsep_end (pre : List UInt8) (hword : 0 ∉ word) (hdelim : delim ∉ word)
    (tail : List UInt8) : strsep (pre ++ (word ++ 0 :: tail)) pre.length delim =
      some (pre ++ (word ++ 0 :: tail), none) := by
  rw [strsep, List.drop_left, findDelim_end hword hdelim]
  rfl

theorem strsep_delim (pre : List UInt8) (hword : 0 ∉ word) (hdelim : delim ∉ word)
    (hzero : delim ≠ 0) (tail : List UInt8) :
    strsep (pre ++ (word ++ delim :: tail)) pre.length delim =
      some (pre ++ (word ++ 0 :: tail), some (pre ++ (word ++ [0])).length) := by
  rw [strsep, List.drop_left, findDelim_delim hword hdelim hzero]
  simp [List.set_append_right, Nat.add_assoc]

theorem lowerLoop_append (pre word tail : List UInt8) :
    lowerLoop word.length (pre ++ (word ++ tail)) pre.length =
      pre ++ (lowerText word ++ tail) := by
  induction word generalizing pre with
  | nil => rfl
  | cons c word ih =>
      have hmodify : (pre ++ (c :: word ++ tail)).modify pre.length toLower =
          (pre ++ [toLower c]) ++ (word ++ tail) := by
        simp [List.modify_eq_take_cons_drop]
      have hlength : pre.length + 1 = (pre ++ [toLower c]).length := by simp
      rw [List.length_cons, lowerLoop, hmodify, hlength, ih]
      simp [lowerText]

end Functions

/-! ## Fill words -/

/-- The word is a fill word, in any letter case.  The table ends with a newline. -/
def IsFill (word : List UInt8) : Prop :=
  lowerText word ∈ fill.dropLast

instance : DecidablePred IsFill :=
  fun word ↦ inferInstanceAs (Decidable (lowerText word ∈ fill.dropLast))

theorem nul_not_mem_getD_fill (i : ℕ) : 0 ∉ fill.getD i [] := by
  have hfill : ∀ word ∈ fill, 0 ∉ word := by decide
  rcases Nat.lt_or_ge i fill.length with hlt | hge
  · rw [List.getD_eq_getElem _ _ hlt]
    exact hfill _ (List.getElem_mem hlt)
  · rw [List.getD_eq_default _ _ hge]
    exact List.not_mem_nil

theorem mem_fill_iff (word : List UInt8) :
    (∃ i ∈ List.range fill.length, fold (fill.getD i []) = fold word) ↔ lowerText word ∈ fill := by
  have hlower : ∀ word ∈ fill, lowerText word = word := by decide
  constructor
  · rintro ⟨i, hi, heq⟩
    rw [List.mem_range] at hi
    rw [List.getD_eq_getElem _ _ hi] at heq
    rw [← lowerText_of_fold heq, hlower _ (List.getElem_mem hi)]
    exact List.getElem_mem hi
  · intro hmem
    obtain ⟨i, hi, heq⟩ := List.mem_iff_getElem.mp hmem
    refine ⟨i, List.mem_range.mpr hi, ?_⟩
    rw [List.getD_eq_getElem _ _ hi, heq, fold_lowerText]

/-- A newline is no word of a line. -/
theorem isFill_iff {word : List UInt8} (hword : ∀ c ∈ word, isSpace c = false) :
    IsFill word ↔ lowerText word ∈ fill := by
  have hsplit : fill = fill.dropLast ++ [[10]] := rfl
  have hcaseless : Caseless 10 := by decide
  have hnewline : lowerText word ≠ [10] := by
    intro heq
    obtain ⟨c, rfl, hc⟩ := List.map_eq_singleton_iff.mp heq
    have hspace := hword c (by simp)
    rw [hcaseless.eq_of_toLower (congrArg UInt8.toNat hc)] at hspace
    cases hspace
  rw [hsplit, List.mem_append, List.mem_singleton, or_iff_left hnewline, IsFill]

/-- The tree of the fill words finds exactly these, and the newline that the table ends with. -/
theorem initializeFillWords_tree {fuel : ℕ} (hfuel : 8 ≤ fuel) :
    ∃ fillWords, initializeFillWords fuel = some fillWords ∧
      ∀ word, 0 ∉ word → ∀ fuel', 8 ≤ fuel' →
        fillWord fuel' fillWords word = some (decide (lowerText word ∈ fill)) := by
  have hlength : (List.range fill.length).length = 8 := rfl
  obtain ⟨h, t, hrun, hkey, -, hfilled⟩ := addAll_spec
    (@follows_keyCompareString ℕ fillItems.key nul_not_mem_getD_fill)
    (rfl : fillItems.root () = none)
    List.nodup_range (hlength.le.trans hfuel) false
  have hsize : t.numNodes ≤ 8 := hfilled.numNodes_le
  obtain ⟨h', hrun', hrep, hframe⟩ :=
    rebalance_if_asked hfilled.represents (hsize.trans hfuel) true
  have hfilled' := hfilled.rebalanced hrep
  refine ⟨h', ?_, ?_⟩
  · rw [initializeFillWords, hrun]
    exact hrun'
  · intro word hnul fuel' hfuel'
    have hkey' : h'.key = fillItems.key := hframe.key.trans hkey
    have hagrees : Agrees (probe keyCompareString h' word) (fun i ↦ fold (fillItems.key i))
        (fold word) (rebalanced true t) := by
      have hkeys : ∀ i ∈ inorder (rebalanced true t), 0 ∉ fillItems.key i :=
        fun i _ ↦ nul_not_mem_getD_fill i
      rw [← hkey'] at hkeys ⊢
      exact agrees_keyCompareString hnul hkeys
    have hnone := hfilled'.arranged.find_eq_none_iff hagrees
    have hranks : (∃ i ∈ inorder (rebalanced true t), fold (fillItems.key i) = fold word) ↔
        lowerText word ∈ fill := by
      rw [← mem_fill_iff]
      constructor
      · rintro ⟨i, hi, heq⟩
        exact ⟨i, hfilled'.mem i hi, heq⟩
      · rintro ⟨i, hi, heq⟩
        obtain ⟨j, hj, hrank⟩ := hfilled'.covers i hi
        exact ⟨j, hj, hrank.trans heq⟩
    have hfind : balancedBTreeFind keyCompareString h' fuel' () word =
        some (find (probe keyCompareString h' word) (rebalanced true t)) :=
      balancedBTreeFind_eq hrep (hfilled'.numNodes_le.trans hfuel') word
    rw [fillWord, hfind]
    cases hfound : find (probe keyCompareString h' word) (rebalanced true t) with
    | none =>
        have hnot : lowerText word ∉ fill := by
          rw [← hranks]
          rintro ⟨i, hi, heq⟩
          exact hnone.mp hfound i hi heq
        simp [hnot]
    | some i =>
        obtain ⟨hi, heq⟩ := find_mem_rank hagrees hfound
        simp [hranks.mp ⟨i, hi, heq⟩]

/-- Among words without white space the tree finds the fill words. -/
theorem initializeFillWords_spec {fuel : ℕ} (hfuel : 8 ≤ fuel) :
    ∃ fillWords, initializeFillWords fuel = some fillWords ∧
      ∀ word, 0 ∉ word → (∀ c ∈ word, isSpace c = false) → ∀ fuel', 8 ≤ fuel' →
        fillWord fuel' fillWords word = some (decide (IsFill word)) := by
  obtain ⟨fillWords, hrun, htree⟩ := initializeFillWords_tree hfuel
  refine ⟨fillWords, hrun, fun word hnul hspace fuel' hfuel' ↦ ?_⟩
  rw [htree word hnul fuel' hfuel', decide_eq_decide.mpr (isFill_iff hspace)]

end HavokMud.Commands
