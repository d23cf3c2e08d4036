import HavokMud.Input.Lines

/-!
# The memory of the splitting loop

The buffer of an event has no byte behind its text and none in front of it.  The loop of
`InputThread` is run here so that it stops where it reads or writes outside of the buffer.
-/

namespace HavokMud.Input

open Sequence

/-! ## The loop -/

/-- The loop that skips control characters reads a byte before it looks at the bound. -/
def skipControlWithin (mem : List UInt8) : ℕ → ℕ → Option ℕ
  | 0, buf => mem[buf]?.map fun _ ↦ buf
  | left + 1, buf =>
      mem[buf]?.bind fun b ↦
        if b ≠ 0 ∧ isControl b = true then skipControlWithin mem left (buf + 1) else some buf

/-- `strstr( buf, "\n" )` reads up to a newline or a NUL. -/
def findNewline : List UInt8 → ℕ → Option (Option ℕ)
  | [], _ => none
  | b :: rest, i =>
      if b = 10 then some (some i) else if b = 0 then some none else findNewline rest (i + 1)

/-- The loop that overwrites carriage returns reads the byte in front of an address. -/
def stripReturnsWithin : ℕ → List UInt8 → Option (List UInt8)
  | 0, _ => none
  | bufloc + 1, mem =>
      mem[bufloc]?.bind fun b ↦
        if b = 13 then stripReturnsWithin bufloc (mem.set bufloc 0) else some mem

/-- What `memstrdup` reads. -/
def readString : List UInt8 → Option (List UInt8)
  | [] => none
  | b :: rest => if b = 0 then some [] else (readString rest).map fun string ↦ b :: string

/-- The loop over the lines, with no result where it leaves the buffer. -/
def splitLinesWithin (bufend : ℕ) :
    ℕ → List UInt8 → ℕ → Option (List (List UInt8) × Option (List UInt8))
  | 0, _, _ => some ([], none)
  | turns + 1, mem, buf =>
      if buf < bufend then do
        let buf ← skipControlWithin mem (bufend - buf) buf
        let b ← mem[buf]?
        if b = 0 ∨ bufend ≤ buf then splitLinesWithin bufend turns mem (buf + 1)
        else
          match ← findNewline (mem.drop buf) buf with
          | some bufloc =>
              let mem ← stripReturnsWithin bufloc (mem.set bufloc 0)
              let line ← readString (mem.drop buf)
              let rest ← splitLinesWithin bufend turns mem (bufloc + 1)
              some (line :: rest.1, rest.2)
          | none => some ([], some ((mem.drop buf).take (bufend - buf)))
      else some ([], none)

/-! ## The same loop in any memory -/

section Same

variable {mem mem' before after : List UInt8} {left buf buf' bufloc bufend turns : ℕ} {b : UInt8}

theorem byteAt_within (before after : List UInt8) (h : mem[buf]? = some b) :
    byteAt (before ++ (mem ++ after)) (before.length + buf) = b := by
  obtain ⟨hlt, -⟩ := List.getElem?_eq_some_iff.mp h
  unfold byteAt
  rw [List.getD_eq_getElem?_getD, List.getElem?_append_right (Nat.le_add_right _ _),
    Nat.add_sub_cancel_left, List.getElem?_append_left hlt, h]
  rfl

theorem skipControl_within (before after : List UInt8)
    (h : skipControlWithin mem left buf = some buf') :
    skipControl (before ++ (mem ++ after)) left (before.length + buf) = before.length + buf' := by
  induction left generalizing buf with
  | zero =>
      obtain ⟨_, -, rfl⟩ := Option.map_eq_some_iff.mp h
      rfl
  | succ left ih =>
      obtain ⟨b, hb, hrest⟩ := Option.bind_eq_some_iff.mp h
      rw [skipControl, byteAt_within before after hb]
      split_ifs at hrest ⊢ with hskip
      · exact ih hrest
      · rw [Option.some.inj hrest]

theorem readString_within {string : List UInt8} (h : readString mem = some string) :
    (mem ++ after).takeWhile (· ≠ 0) = string := by
  induction mem generalizing string with
  | nil => cases h
  | cons b mem ih =>
      unfold readString at h
      split_ifs at h with hb
      · obtain rfl := Option.some.inj h
        simp [hb]
      · obtain ⟨rest, hrest, rfl⟩ := Option.map_eq_some_iff.mp h
        rw [List.cons_append, List.takeWhile_cons_of_pos (by simpa using hb), ih hrest]

/-- A newline is found at the same place, or there is a NUL before any. -/
theorem findNewline_within (after : List UInt8) {found : Option ℕ}
    (h : findNewline mem buf = some found) :
    found = if 10 ∈ (mem ++ after).takeWhile (· ≠ 0) then
      some (buf + ((mem ++ after).takeWhile (· ≠ 0)).idxOf 10) else none := by
  induction mem generalizing buf with
  | nil => cases h
  | cons b mem ih =>
      unfold findNewline at h
      split_ifs at h with hnewline hnul
      · obtain rfl := Option.some.inj h
        simp [hnewline]
      · obtain rfl := Option.some.inj h
        simp [hnul]
      · rw [ih h, List.cons_append, List.takeWhile_cons_of_pos (by simpa using hnul)]
        simp only [List.mem_cons, Ne.symm hnewline, false_or]
        rw [List.idxOf_cons_ne _ hnewline]
        split_ifs
        · congr 1
          omega
        · rfl

theorem findNewline_lt {bufloc : ℕ} (h : findNewline mem buf = some (some bufloc)) :
    bufloc < buf + mem.length := by
  induction mem generalizing buf with
  | nil => cases h
  | cons b mem ih =>
      unfold findNewline at h
      rw [List.length_cons]
      split_ifs at h
      · have heq : buf = bufloc := by simpa using h
        omega
      · cases Option.some.inj h
      · have hlt := ih h
        omega

theorem stripReturns_within (before after : List UInt8)
    (h : stripReturnsWithin bufloc mem = some mem') :
    stripReturns (before.length + bufloc) (before ++ (mem ++ after)) = before ++ (mem' ++ after) ∧
      mem'.length = mem.length := by
  induction bufloc generalizing mem with
  | zero => cases h
  | succ bufloc ih =>
      obtain ⟨b, hb, hrest⟩ := Option.bind_eq_some_iff.mp h
      obtain ⟨hlt, -⟩ := List.getElem?_eq_some_iff.mp hb
      rw [← Nat.add_assoc, stripReturns, byteAt_within before after hb]
      split_ifs at hrest ⊢ with hreturn
      · have hset : (before ++ (mem ++ after)).set (before.length + bufloc) 0 =
            before ++ (mem.set bufloc 0 ++ after) := by
          rw [List.set_append_right _ _ (Nat.le_add_right _ _), Nat.add_sub_cancel_left,
            List.set_append_left _ _ hlt]
        rw [hset]
        obtain ⟨hstrip, hlength⟩ := ih hrest
        exact ⟨hstrip, hlength.trans List.length_set⟩
      · obtain rfl := Option.some.inj hrest
        exact ⟨rfl, rfl⟩

/-- Where the loop stays inside of the buffer, it does the same in all memory. -/
theorem splitLines_within {result : List (List UInt8) × Option (List UInt8)}
    (before after : List UInt8) (h : splitLinesWithin mem.length turns mem buf = some result) :
    splitLines (before.length + mem.length) turns (before ++ (mem ++ after)) (before.length + buf) =
      result := by
  induction turns generalizing mem buf result with
  | zero => exact Option.some.inj h
  | succ turns ih =>
      unfold splitLinesWithin at h
      unfold splitLines
      by_cases hlt : buf < mem.length
      · have hlt' : before.length + buf < before.length + mem.length := by omega
        have hleft : before.length + mem.length - (before.length + buf) = mem.length - buf := by
          omega
        rw [if_pos hlt] at h
        obtain ⟨buf', hskip, h⟩ := Option.bind_eq_some_iff.mp h
        obtain ⟨b, hb, h⟩ := Option.bind_eq_some_iff.mp h
        obtain ⟨hlt₁, -⟩ := List.getElem?_eq_some_iff.mp hb
        have hdrop : (before ++ (mem ++ after)).drop (before.length + buf') =
            mem.drop buf' ++ after := by
          rw [List.drop_append, List.drop_of_length_le (by omega), List.nil_append,
            Nat.add_sub_cancel_left, List.drop_append_of_le_length hlt₁.le]
        rw [if_pos hlt', hleft, skipControl_within before after hskip]
        dsimp only
        rw [byteAt_within before after hb]
        have hbound : (b = 0 ∨ before.length + mem.length ≤ before.length + buf') ↔
            (b = 0 ∨ mem.length ≤ buf') :=
          or_congr_right Nat.add_le_add_iff_left
        by_cases hnul : b = 0 ∨ mem.length ≤ buf'
        · rw [if_pos hnul] at h
          rw [if_pos (hbound.mpr hnul)]
          exact ih h
        · rw [if_neg hnul] at h
          rw [if_neg (mt hbound.mp hnul)]
          obtain ⟨found, hfound, h⟩ := Option.bind_eq_some_iff.mp h
          have hnewline : strstrNewline (before ++ (mem ++ after)) (before.length + buf') =
              found.map fun bufloc ↦ before.length + bufloc := by
            unfold strstrNewline cString
            rw [hdrop, findNewline_within after hfound]
            split_ifs
            · simp [Nat.add_assoc]
            · rfl
          rw [hnewline]
          cases found with
          | none =>
              obtain rfl := Option.some.inj h
              dsimp only [Option.map_none]
              have hcount : before.length + mem.length - (before.length + buf') =
                  mem.length - buf' := by
                omega
              have hlength : (mem.drop buf').length = mem.length - buf' := List.length_drop
              rw [hdrop, hcount, List.take_append_of_le_length hlength.ge]
          | some bufloc =>
              dsimp only [Option.map_some] at h ⊢
              obtain ⟨mem', hstrip, h⟩ := Option.bind_eq_some_iff.mp h
              obtain ⟨line, hline, h⟩ := Option.bind_eq_some_iff.mp h
              obtain ⟨rest, hrest, h⟩ := Option.bind_eq_some_iff.mp h
              obtain rfl := Option.some.inj h
              have hlocation : bufloc < mem.length := by
                have hlt₂ := findNewline_lt hfound
                rw [List.length_drop] at hlt₂
                omega
              have hset : (before ++ (mem ++ after)).set (before.length + bufloc) 0 =
                  before ++ (mem.set bufloc 0 ++ after) := by
                rw [List.set_append_right _ _ (Nat.le_add_right _ _), Nat.add_sub_cancel_left,
                  List.set_append_left _ _ hlocation]
              obtain ⟨hstrip', hlength⟩ := stripReturns_within before after hstrip
              rw [List.length_set] at hlength
              rw [← hlength] at hrest
              have hlines := ih hrest
              have hstring : cString (before ++ (mem' ++ after)) (before.length + buf') = line := by
                unfold cString
                rw [List.drop_append, List.drop_of_length_le (by omega), List.nil_append,
                  Nat.add_sub_cancel_left, List.drop_append_of_le_length (by omega)]
                exact readString_within hline
              rw [hset, hstrip', hstring, Nat.add_assoc, ← hlength, hlines]
      · rw [if_neg hlt] at h
        obtain rfl := Option.some.inj h
        rw [if_neg (by omega)]

end Same

/-! ## Single turns -/

section Turns

variable {pre tail piece mem : List UInt8} {b : UInt8} {turns i : ℕ}

theorem getElem?_first (pre tail : List UInt8) : (pre ++ b :: tail)[pre.length]? = some b := by
  simp

theorem skipControlWithin_control (pre tail : List UInt8) (hne : b ≠ 0)
    (hcontrol : isControl b = true) (left : ℕ) :
    skipControlWithin (pre ++ b :: tail) (left + 1) pre.length =
      skipControlWithin (pre ++ b :: tail) left (pre.length + 1) := by
  rw [skipControlWithin, getElem?_first, Option.bind_some, if_pos ⟨hne, hcontrol⟩]

theorem skipControlWithin_stop (pre tail : List UInt8) (hstop : b = 0 ∨ isControl b = false)
    (left : ℕ) : skipControlWithin (pre ++ b :: tail) left pre.length = some pre.length := by
  cases left with
  | zero => rw [skipControlWithin, getElem?_first, Option.map_some]
  | succ left =>
      have hnot : ¬ (b ≠ 0 ∧ isControl b = true) := by
        rintro ⟨hne, hcontrol⟩
        rcases hstop with hzero | hplain
        · exact hne hzero
        · rw [hplain] at hcontrol
          cases hcontrol
      rw [skipControlWithin, getElem?_first, Option.bind_some, if_neg hnot]

theorem splitLinesWithin_done (bufend turns : ℕ) (mem : List UInt8) {buf : ℕ}
    (hbuf : bufend ≤ buf) : splitLinesWithin bufend turns mem buf = some ([], none) := by
  cases turns with
  | zero => rfl
  | succ turns => rw [splitLinesWithin, if_neg (not_lt.mpr hbuf)]

/-- A control character is skipped, and the byte behind it is read. -/
theorem splitLinesWithin_control (pre tail : List UInt8) (turns : ℕ) (hne : b ≠ 0)
    (hcontrol : isControl b = true) :
    splitLinesWithin (pre ++ b :: tail).length (turns + 1) (pre ++ b :: tail) pre.length =
      if tail = [] then none
      else splitLinesWithin (pre ++ b :: tail).length (turns + 1) (pre ++ b :: tail)
        (pre.length + 1) := by
  have hlength : (pre ++ b :: tail).length = pre.length + (tail.length + 1) := by simp
  have hlt : pre.length < (pre ++ b :: tail).length := by omega
  have hleft : (pre ++ b :: tail).length - pre.length =
      (pre ++ b :: tail).length - (pre.length + 1) + 1 := by omega
  conv => lhs; unfold splitLinesWithin
  rw [if_pos hlt, hleft, skipControlWithin_control pre tail hne hcontrol]
  split_ifs with htail
  · subst htail
    have hzero : (pre ++ [b]).length - (pre.length + 1) = 0 := by simp
    have hbehind : (pre ++ [b])[pre.length + 1]? = none := by simp
    rw [hzero, skipControlWithin, hbehind]
    rfl
  · have hnext : pre.length + 1 < (pre ++ b :: tail).length := by
      have hpos := List.length_pos_iff.mpr htail
      omega
    conv => rhs; unfold splitLinesWithin
    rw [if_pos hnext]

/-- A NUL takes a turn. -/
theorem splitLinesWithin_nul :
    splitLinesWithin (pre ++ 0 :: tail).length (turns + 1) (pre ++ 0 :: tail) pre.length =
      splitLinesWithin (pre ++ 0 :: tail).length turns (pre ++ 0 :: tail) (pre.length + 1) := by
  have hlt : pre.length < (pre ++ 0 :: tail).length := by simp
  rw [splitLinesWithin, if_pos hlt, skipControlWithin_stop pre tail (.inl rfl)]
  simp only [Option.bind_eq_bind, Option.bind_some, getElem?_first, true_or, if_true]

/-- Any other byte begins a line. -/
theorem splitLinesWithin_begin (pre tail : List UInt8) (turns : ℕ)
    (hcontrol : isControl b = false) :
    splitLinesWithin (pre ++ b :: tail).length (turns + 1) (pre ++ b :: tail) pre.length =
      (findNewline (b :: tail) pre.length).bind fun
        | some bufloc =>
            (stripReturnsWithin bufloc ((pre ++ b :: tail).set bufloc 0)).bind fun mem ↦
              (readString (mem.drop pre.length)).bind fun line ↦
                (splitLinesWithin (pre ++ b :: tail).length turns mem (bufloc + 1)).map fun rest ↦
                  (line :: rest.1, rest.2)
        | none => some ([], some (b :: tail)) := by
  have hlength : (pre ++ b :: tail).length = pre.length + (b :: tail).length := List.length_append
  have hlt : pre.length < (pre ++ b :: tail).length := by simp
  have hne : b ≠ 0 := by
    rintro rfl
    rw [isControl_zero] at hcontrol
    cases hcontrol
  have hstop : ¬ (b = 0 ∨ (pre ++ b :: tail).length ≤ pre.length) :=
    not_or.mpr ⟨hne, not_le.mpr hlt⟩
  have htake : (b :: tail).take ((pre ++ b :: tail).length - pre.length) = b :: tail := by
    rw [hlength, Nat.add_sub_cancel_left, List.take_length]
  rw [splitLinesWithin, if_pos hlt, skipControlWithin_stop pre tail (.inr hcontrol)]
  simp only [Option.bind_eq_bind, Option.bind_some, getElem?_first, if_neg hstop, List.drop_left,
    htake]
  congr 1
  funext found
  cases found with
  | none => rfl
  | some bufloc =>
      dsimp only
      congr 1
      funext mem
      congr 1
      funext line
      rw [Option.map_eq_bind]
      rfl

/-! ## Pieces -/

/-- What is skipped in front of other bytes. -/
theorem splitLinesWithin_skip (pre : List UInt8) (htail : tail ≠ [])
    (hall : ∀ b ∈ piece, isControl b = true) (hturns : piece.length < turns) :
    ∃ turns', turns ≤ turns' + piece.length ∧ 0 < turns' ∧
      splitLinesWithin (pre ++ (piece ++ tail)).length turns (pre ++ (piece ++ tail)) pre.length =
        splitLinesWithin (pre ++ (piece ++ tail)).length turns' (pre ++ (piece ++ tail))
          (pre.length + piece.length) := by
  induction piece generalizing pre turns with
  | nil => exact ⟨turns, le_rfl, hturns, rfl⟩
  | cons b piece ih =>
      obtain ⟨hb, hall⟩ := List.forall_mem_cons.mp hall
      rw [List.length_cons] at hturns
      obtain ⟨turns, rfl⟩ : ∃ k, turns = k + 1 := ⟨turns - 1, by omega⟩
      have hmem : pre ++ (b :: piece ++ tail) = (pre ++ [b]) ++ (piece ++ tail) := by
        rw [List.append_assoc]
        rfl
      have hlength : (pre ++ [b]).length = pre.length + 1 := List.length_append
      have hnext : ∀ turns₁, piece.length < turns₁ → ∃ turns', turns₁ ≤ turns' + piece.length ∧
          0 < turns' ∧
          splitLinesWithin (pre ++ (b :: piece ++ tail)).length turns₁
              (pre ++ (b :: piece ++ tail)) (pre.length + 1) =
            splitLinesWithin (pre ++ (b :: piece ++ tail)).length turns'
              (pre ++ (b :: piece ++ tail)) (pre.length + (piece.length + 1)) := by
        intro turns₁ hturns₁
        obtain ⟨turns', hused, hpos, hskip⟩ := ih (pre ++ [b]) hall hturns₁
        rw [← hmem, hlength] at hskip
        refine ⟨turns', hused, hpos, hskip.trans ?_⟩
        congr 1
        omega
      rw [List.length_cons]
      by_cases hzero : b = 0
      · subst hzero
        obtain ⟨turns', hused, hpos, hskip⟩ := hnext turns (by omega)
        exact ⟨turns', by omega, hpos, splitLinesWithin_nul.trans hskip⟩
      · obtain ⟨turns', hused, hpos, hskip⟩ := hnext (turns + 1) (by omega)
        refine ⟨turns', by omega, hpos, Eq.trans ?_ hskip⟩
        have hcontrol := splitLinesWithin_control pre (piece ++ tail) turns hzero hb
        rwa [if_neg (by simp [htail])] at hcontrol

theorem findNewline_found (hnewline : 10 ∉ piece) (hnul : 0 ∉ piece) (i : ℕ) (tail : List UInt8) :
    findNewline (piece ++ 10 :: tail) i = some (some (i + piece.length)) := by
  induction piece generalizing i with
  | nil => rfl
  | cons b piece ih =>
      rw [List.mem_cons, not_or] at hnewline hnul
      rw [List.cons_append, findNewline, if_neg (Ne.symm hnewline.1), if_neg (Ne.symm hnul.1),
        ih hnewline.2 hnul.2, List.length_cons]
      congr 2
      omega

/-- A NUL before any newline ends the search. -/
theorem findNewline_nul (hnewline : 10 ∉ piece) (hnul : 0 ∈ piece) (i : ℕ) (tail : List UInt8) :
    findNewline (piece ++ tail) i = some none := by
  induction piece generalizing i with
  | nil => cases hnul
  | cons b piece ih =>
      rw [List.mem_cons, not_or] at hnewline
      rw [List.cons_append, findNewline, if_neg (Ne.symm hnewline.1)]
      split_ifs with hb
      · rfl
      · have hrest : 0 ∈ piece := (List.mem_cons.mp hnul).resolve_left (Ne.symm hb)
        exact ih hnewline.2 hrest (i + 1)

/-- Without either the search leaves the buffer. -/
theorem findNewline_none (hnewline : 10 ∉ piece) (hnul : 0 ∉ piece) (i : ℕ) :
    findNewline piece i = none := by
  induction piece generalizing i with
  | nil => rfl
  | cons b piece ih =>
      rw [List.mem_cons, not_or] at hnewline hnul
      rw [findNewline, if_neg (Ne.symm hnewline.1), if_neg (Ne.symm hnul.1)]
      exact ih hnewline.2 hnul.2 (i + 1)

/-- The carriage returns are overwritten up to another byte, if there is one. -/
theorem stripReturnsWithin_cases (pre tail : List UInt8) :
    ((∃ b ∈ pre, b ≠ 13) ∧ ∃ pre', pre'.length = pre.length ∧
        stripReturnsWithin pre.length (pre ++ tail) = some (pre' ++ tail)) ∨
      ((∀ b ∈ pre, b = 13) ∧ stripReturnsWithin pre.length (pre ++ tail) = none) := by
  induction pre using List.reverseRecOn generalizing tail with
  | nil => exact .inr ⟨List.forall_mem_nil _, rfl⟩
  | append_singleton pre x ih =>
      rw [List.length_append, List.append_assoc]
      change (_ ∧ ∃ pre', _ ∧ stripReturnsWithin (pre.length + 1) (pre ++ x :: tail) = _) ∨
        (_ ∧ stripReturnsWithin (pre.length + 1) (pre ++ x :: tail) = _)
      rw [stripReturnsWithin, getElem?_first, Option.bind_some, set_append]
      by_cases hx : x = 13
      · rw [if_pos hx]
        rcases ih (0 :: tail) with ⟨⟨b, hb, hne⟩, pre', hlength, hstrip⟩ | ⟨hall, hnone⟩
        · refine .inl ⟨⟨b, List.mem_append_left _ hb, hne⟩, pre' ++ [0], ?_, ?_⟩
          · rw [List.length_append, hlength]
            rfl
          · rw [hstrip, List.append_assoc]
            rfl
        · refine .inr ⟨fun b hb ↦ ?_, hnone⟩
          rcases List.mem_append.mp hb with hb | hb
          · exact hall b hb
          · exact (List.mem_singleton.mp hb).trans hx
      · rw [if_neg hx]
        refine .inl ⟨⟨x, by simp, hx⟩, pre ++ [x], by simp, ?_⟩
        rw [List.append_assoc]
        rfl

theorem readString_nul (xs tail : List UInt8) :
    ∃ line, readString (xs ++ 0 :: tail) = some line := by
  induction xs with
  | nil => exact ⟨[], rfl⟩
  | cons b xs ih =>
      obtain ⟨line, hline⟩ := ih
      rw [List.cons_append, readString, hline]
      split_ifs
      · exact ⟨_, rfl⟩
      · exact ⟨_, rfl⟩

end Turns

/-! ## Texts that stay inside of the buffer -/

/-- The loop over a piece without a newline behind it does not read behind it: the piece is empty,
or a NUL ends the search for a newline or is the last byte that is skipped. -/
def EndsInside (piece : List UInt8) : Prop :=
  piece = [] ∨ 0 ∈ piece.dropWhile isControl ∨
    piece.dropWhile isControl = [] ∧ piece.getLast? = some 0

/-- The loop over a text does not leave the text: in front of the first newline there is another
byte than a carriage return, and the loop ends at a NUL in one of the lines or inside of the piece
behind the last newline. -/
def StaysInside (text : List UInt8) : Prop :=
  (∀ line rest, (cut 10 text).1 = line :: rest → ∃ b ∈ line, b ≠ 13) ∧
    ((∃ line ∈ (cut 10 text).1, 0 ∈ line.dropWhile isControl) ∨ EndsInside (cut 10 text).2)

section Inside

variable {pre piece rest : List UInt8} {turns : ℕ}

/-- The bytes that a line begins with are skipped. -/
theorem splitLinesWithin_core (pre piece tail : List UInt8)
    (htail : piece.dropWhile isControl ++ tail ≠ [])
    (hturns : (piece.takeWhile isControl).length < turns) :
    ∃ pre' turns', pre' ++ piece.dropWhile isControl = pre ++ piece ∧
      turns ≤ turns' + 1 + piece.length ∧
      splitLinesWithin (pre ++ (piece ++ tail)).length turns (pre ++ (piece ++ tail)) pre.length =
        splitLinesWithin (pre' ++ (piece.dropWhile isControl ++ tail)).length (turns' + 1)
          (pre' ++ (piece.dropWhile isControl ++ tail)) pre'.length := by
  set front := piece.takeWhile isControl
  set core := piece.dropWhile isControl
  have hpiece : front ++ core = piece := List.takeWhile_append_dropWhile
  have hlength : front.length + core.length = piece.length := by rw [← List.length_append, hpiece]
  have hall : ∀ b ∈ front, isControl b = true := fun b hb ↦ List.mem_takeWhile_imp hb
  obtain ⟨turns', hused, hpos, hskip⟩ := splitLinesWithin_skip pre htail hall hturns
  obtain ⟨turns', rfl⟩ : ∃ k, turns' = k + 1 := ⟨turns' - 1, by omega⟩
  have hmem : pre ++ (piece ++ tail) = pre ++ (front ++ (core ++ tail)) := by
    rw [← hpiece, List.append_assoc]
  have hmem' : pre ++ front ++ (core ++ tail) = pre ++ (front ++ (core ++ tail)) :=
    List.append_assoc ..
  refine ⟨pre ++ front, turns', ?_, by omega, ?_⟩
  · rw [List.append_assoc, hpiece]
  · have hfront : (pre ++ front).length = pre.length + front.length := List.length_append
    rw [hmem, hmem', hfront]
    exact hskip

/-- A line with a NUL in it ends the loop. -/
theorem splitLinesWithin_open (pre tail : List UInt8) (hnewline : 10 ∉ piece)
    (hnul : 0 ∈ piece.dropWhile isControl) (hturns : piece.length ≤ turns) :
    ∃ result, splitLinesWithin (pre ++ (piece ++ tail)).length turns (pre ++ (piece ++ tail))
      pre.length = some result := by
  have hne : piece.dropWhile isControl ≠ [] := List.ne_nil_of_mem hnul
  have hpieces : piece.takeWhile isControl ++ piece.dropWhile isControl = piece :=
    List.takeWhile_append_dropWhile
  have hlength := congrArg List.length hpieces
  have hpos := List.length_pos_iff.mpr hne
  rw [List.length_append] at hlength
  obtain ⟨pre', turns', -, -, hcore⟩ := splitLinesWithin_core pre piece tail
    (List.append_ne_nil_of_left_ne_nil hne tail)
    (by omega : (piece.takeWhile isControl).length < turns)
  have hnewline' : 10 ∉ piece.dropWhile isControl := fun hmem ↦
    hnewline ((List.dropWhile_suffix isControl).subset hmem)
  obtain ⟨b, rest, hcons⟩ := List.exists_cons_of_ne_nil hne
  have hsearch := findNewline_nul hnewline' hnul pre'.length tail
  rw [hcore]
  rw [hcons, List.cons_append] at hsearch ⊢
  rw [splitLinesWithin_begin _ _ _ (isControl_of_dropWhile hcons), hsearch]
  exact ⟨_, rfl⟩

/-- A line is cut out, unless there are only carriage returns in front of its newline. -/
theorem splitLinesWithin_line (pre rest : List UInt8) (hnewline : 10 ∉ piece)
    (hnul : 0 ∉ piece.dropWhile isControl) (hturns : piece.length + 1 + rest.length ≤ turns) :
    ((∃ b ∈ pre ++ piece, b ≠ 13) ∧ ∃ pre' line turns', 0 ∈ pre' ∧ rest.length ≤ turns' ∧
        splitLinesWithin (pre ++ (piece ++ 10 :: rest)).length turns (pre ++ (piece ++ 10 :: rest))
            pre.length =
          (splitLinesWithin (pre' ++ rest).length turns' (pre' ++ rest) pre'.length).map
            fun result ↦ (line :: result.1, result.2)) ∨
      ((∀ b ∈ pre ++ piece, b = 13) ∧
        splitLinesWithin (pre ++ (piece ++ 10 :: rest)).length turns (pre ++ (piece ++ 10 :: rest))
          pre.length = none) := by
  have hpieces : piece.takeWhile isControl ++ piece.dropWhile isControl = piece :=
    List.takeWhile_append_dropWhile
  have hlength := congrArg List.length hpieces
  rw [List.length_append] at hlength
  obtain ⟨pre₁, turns', hpre₁, hused, hcore⟩ := splitLinesWithin_core pre piece (10 :: rest)
    (by simp) (by omega : (piece.takeWhile isControl).length < turns)
  have hnewline' : 10 ∉ piece.dropWhile isControl := fun hmem ↦
    hnewline ((List.dropWhile_suffix isControl).subset hmem)
  have hbegin : ∃ b core, piece.dropWhile isControl ++ 10 :: rest = b :: core ∧
      isControl b = false := by
    cases hcons : piece.dropWhile isControl with
    | nil => exact ⟨10, rest, rfl, by decide⟩
    | cons b core => exact ⟨b, core ++ 10 :: rest, rfl, isControl_of_dropWhile hcons⟩
  obtain ⟨b, core, hcons, hcontrol⟩ := hbegin
  have hsearch := findNewline_found hnewline' hnul pre₁.length rest
  have hall : pre₁ ++ (piece.dropWhile isControl ++ 10 :: rest) = (pre ++ piece) ++ 10 :: rest := by
    rw [← List.append_assoc, hpre₁]
  have hset : (pre₁ ++ (piece.dropWhile isControl ++ 10 :: rest)).set
      (pre₁.length + (piece.dropWhile isControl).length) 0 = (pre ++ piece) ++ 0 :: rest := by
    rw [hall, ← List.length_append, hpre₁, set_append]
  have hindex : pre₁.length + (piece.dropWhile isControl).length = (pre ++ piece).length := by
    rw [← List.length_append, hpre₁]
  have hrun := splitLinesWithin_begin pre₁ core turns' hcontrol
  rw [← hcons, hsearch, Option.bind_some] at hrun
  dsimp only at hrun
  rw [hset, hindex] at hrun
  rw [hcore, hrun]
  rcases stripReturnsWithin_cases (pre ++ piece) (0 :: rest) with
    ⟨hother, pre', hlength', hstrip⟩ | ⟨hreturns, hnone⟩
  · refine .inl ⟨hother, ?_⟩
    have hle : pre₁.length ≤ pre'.length := by omega
    obtain ⟨line, hline⟩ := readString_nul (pre'.drop pre₁.length) rest
    have hdrop : (pre' ++ 0 :: rest).drop pre₁.length = pre'.drop pre₁.length ++ 0 :: rest :=
      List.drop_append_of_le_length hle
    have hmem : pre' ++ 0 :: rest = (pre' ++ [0]) ++ rest := by
      rw [List.append_assoc]
      rfl
    have hend : (pre₁ ++ (piece.dropWhile isControl ++ 10 :: rest)).length =
        ((pre' ++ [0]) ++ rest).length := by
      rw [hall]
      simp only [List.length_append, List.length_cons, List.length_nil] at hlength' ⊢
      omega
    refine ⟨pre' ++ [0], line, turns', by simp, by omega, ?_⟩
    have hnext : (pre' ++ [0]).length = (pre ++ piece).length + 1 := by
      rw [List.length_append, hlength', List.length_singleton]
    rw [hstrip, Option.bind_some, hdrop, hline, Option.bind_some, hend, hmem, hnext]
  · refine .inr ⟨hreturns, ?_⟩
    rw [hnone]
    rfl

/-- The piece behind the last newline. -/
theorem splitLinesWithin_last (pre : List UInt8) (hnewline : 10 ∉ piece)
    (hturns : piece.length ≤ turns) :
    (∃ result, splitLinesWithin (pre ++ piece).length turns (pre ++ piece) pre.length =
      some result) ↔ EndsInside piece := by
  by_cases hcore : piece.dropWhile isControl = []
  · have hall : ∀ b ∈ piece, isControl b = true := List.dropWhile_eq_nil_iff.mp hcore
    rcases List.eq_nil_or_concat piece with rfl | ⟨front, b, rfl⟩
    · refine iff_of_true ⟨_, splitLinesWithin_done _ _ _ ?_⟩ (.inl rfl)
      rw [List.append_nil]
    · -- the last byte that is skipped
      rw [List.concat_eq_append] at hall hcore hturns ⊢
      have hfront : ∀ c ∈ front, isControl c = true := fun c hc ↦
        hall c (List.mem_append_left _ hc)
      have hb := hall b (by simp)
      rw [List.length_append, List.length_singleton] at hturns
      obtain ⟨turns', -, hpos, hskip⟩ := splitLinesWithin_skip pre
        (List.cons_ne_nil b []) hfront hturns
      obtain ⟨turns', rfl⟩ : ∃ k, turns' = k + 1 := ⟨turns' - 1, by omega⟩
      have hends : EndsInside (front ++ [b]) ↔ b = 0 := by
        unfold EndsInside
        rw [hcore]
        simp
      rw [hends, hskip, ← List.append_assoc, ← List.length_append]
      by_cases hzero : b = 0
      · subst hzero
        refine iff_of_true ⟨([], none), ?_⟩ rfl
        rw [splitLinesWithin_nul]
        apply splitLinesWithin_done
        simp [Nat.add_assoc]
      · refine iff_of_false ?_ hzero
        rintro ⟨result, hresult⟩
        rw [splitLinesWithin_control _ _ _ hzero hb, if_pos rfl] at hresult
        cases hresult
  · by_cases hnul : 0 ∈ piece.dropWhile isControl
    · have hopen := splitLinesWithin_open pre [] hnewline hnul hturns
      rw [List.append_nil] at hopen
      exact iff_of_true hopen (.inr (.inl hnul))
    · -- the search for a newline leaves the buffer
      have hends : ¬ EndsInside piece := by
        rintro (rfl | hmem | ⟨hnil, -⟩)
        · exact hcore rfl
        · exact hnul hmem
        · exact hcore hnil
      refine iff_of_false ?_ hends
      rintro ⟨result, hresult⟩
      have hpieces : piece.takeWhile isControl ++ piece.dropWhile isControl = piece :=
        List.takeWhile_append_dropWhile
      have hlength := congrArg List.length hpieces
      have hpos := List.length_pos_iff.mpr hcore
      rw [List.length_append] at hlength
      obtain ⟨pre', turns', -, -, hrun⟩ := splitLinesWithin_core pre piece []
        (by simpa using hcore) (by omega : (piece.takeWhile isControl).length < turns)
      have hnewline' : 10 ∉ piece.dropWhile isControl := fun hmem ↦
        hnewline ((List.dropWhile_suffix isControl).subset hmem)
      obtain ⟨b, core, hcons⟩ := List.exists_cons_of_ne_nil hcore
      have hsearch := findNewline_none hnewline' hnul pre'.length
      rw [List.append_nil, List.append_nil] at hrun
      rw [hrun] at hresult
      rw [hcons] at hsearch hresult
      rw [splitLinesWithin_begin _ _ _ (isControl_of_dropWhile hcons), hsearch] at hresult
      cases hresult

/-- The loop over lines and a last piece. -/
theorem splitLinesWithin_pieces (pre : List UInt8) {lines : List (List UInt8)}
    (hlines : ∀ line ∈ lines, 10 ∉ line) (hlast : 10 ∉ piece)
    (hturns : ((lines.flatMap fun line ↦ line ++ [10]) ++ piece).length ≤ turns) :
    (∃ result, splitLinesWithin (pre ++ ((lines.flatMap fun line ↦ line ++ [10]) ++ piece)).length
        turns (pre ++ ((lines.flatMap fun line ↦ line ++ [10]) ++ piece)) pre.length =
          some result) ↔
      (∀ line rest, lines = line :: rest → ∃ b ∈ pre ++ line, b ≠ 13) ∧
        ((∃ line ∈ lines, 0 ∈ line.dropWhile isControl) ∨ EndsInside piece) := by
  induction lines generalizing pre turns with
  | nil =>
      have hlength : piece.length ≤ turns := by simpa using hturns
      simpa using splitLinesWithin_last pre hlast hlength
  | cons line lines ih =>
      obtain ⟨hline, hlines⟩ := List.forall_mem_cons.mp hlines
      have hmem : ((line :: lines).flatMap fun line ↦ line ++ [10]) ++ piece =
          line ++ 10 :: ((lines.flatMap fun line ↦ line ++ [10]) ++ piece) := by
        simp [List.append_assoc]
      rw [hmem] at hturns ⊢
      set rest := (lines.flatMap fun line ↦ line ++ [10]) ++ piece
      have hlength : line.length + 1 + rest.length ≤ turns := by
        rw [List.length_append, List.length_cons] at hturns
        omega
      by_cases hnul : 0 ∈ line.dropWhile isControl
      · refine iff_of_true (splitLinesWithin_open pre (10 :: rest) hline hnul (by omega)) ⟨?_, ?_⟩
        · rintro _ _ ⟨⟩
          have hzero := (List.dropWhile_suffix isControl).subset hnul
          exact ⟨0, List.mem_append_right _ hzero, by decide⟩
        · exact .inl ⟨line, List.mem_cons_self, hnul⟩
      · rcases splitLinesWithin_line pre rest hline hnul hlength with
          ⟨hother, pre', line', turns', hzero, hturns', hrun⟩ | ⟨hreturns, hrun⟩
        · have hrest := ih pre' hlines hturns'
          have hfirst : ∀ line rest, lines = line :: rest → ∃ b ∈ pre' ++ line, b ≠ 13 :=
            fun _ _ _ ↦ ⟨0, List.mem_append_left _ hzero, by decide⟩
          rw [and_iff_right hfirst] at hrest
          have hthis : ∀ first others, line :: lines = first :: others →
              ∃ b ∈ pre ++ first, b ≠ 13 := by
            rintro _ _ ⟨⟩
            exact hother
          rw [hrun, and_iff_right hthis]
          simp only [Option.map_eq_some_iff, List.exists_mem_cons_iff, hnul, false_or]
          rw [← hrest]
          constructor
          · rintro ⟨-, result, hresult, -⟩
            exact ⟨result, hresult⟩
          · rintro ⟨result, hresult⟩
            exact ⟨_, result, hresult, rfl⟩
        · refine iff_of_false ?_ ?_
          · rintro ⟨result, hresult⟩
            rw [hrun] at hresult
            cases hresult
          · rintro ⟨hfirst, -⟩
            obtain ⟨b, hb, hne⟩ := hfirst line lines rfl
            exact hne (hreturns b hb)

end Inside

/-- The loop over the remainder and the bytes of an event reads and writes only the buffer of the
event exactly if there is another byte than a carriage return in front of the first newline, and a
NUL in a line ends the loop or the piece behind the last newline is empty or has a NUL where the
search for a newline or the skipping would leave the buffer. -/
theorem splitting_stays_inside_iff (inRemain : Option (List UInt8)) (chunk : List UInt8) :
    (∃ result, splitLinesWithin (inRemain.getD [] ++ chunk).length
      (inRemain.getD [] ++ chunk).length (inRemain.getD [] ++ chunk) 0 = some result) ↔
        StaysInside (inRemain.getD [] ++ chunk) := by
  set text := inRemain.getD [] ++ chunk
  have hjoin : ((cut 10 text).1.flatMap fun piece ↦ piece ++ [10]) ++ (cut 10 text).2 = text :=
    join_cut text
  obtain ⟨hlines, hlast⟩ : (∀ piece ∈ (cut 10 text).1, 10 ∉ piece) ∧ 10 ∉ (cut 10 text).2 :=
    not_mem_cut text
  have hpieces := splitLinesWithin_pieces [] hlines hlast le_rfl
  rw [hjoin] at hpieces
  exact hpieces

/-- A line that is not finished: the search for its newline reads behind the buffer. -/
theorem unfinished_line_leaves_buffer :
    ¬ ∃ result, splitLinesWithin 2 2 [104, 105] 0 = some result := by
  rintro ⟨result, hresult⟩
  have hnone : splitLinesWithin 2 2 [104, 105] 0 = none := by decide
  rw [hnone] at hresult
  cases hresult

end HavokMud.Input
