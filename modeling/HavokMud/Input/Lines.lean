import HavokMud.Buffer.Objects
import HavokMud.Sequence.Pieces
import Mathlib.Data.List.DropRight

/-!
# Lines of input

`InputThread` puts the bytes that have arrived behind the remainder of the last time and cuts lines
out of them where they stand: it skips control characters, searches for a newline as `strstr` does,
up to the next NUL, and writes NULs over the newline and the carriage returns before it.
-/

namespace HavokMud.Input

open Buffer Sequence

/-! ## The loop -/

/-- `*buf != '\n' && *buf < 32`, where `char` is signed. -/
def isControl (b : UInt8) : Bool :=
  decide (b ≠ 10) && decide (b.toInt8 < 32)

/-- Memory that is not listed reads as NUL. -/
def byteAt (mem : List UInt8) (i : ℕ) : UInt8 :=
  mem.getD i 0

/-- The loop that skips control characters, with the number of bytes left. -/
def skipControl (mem : List UInt8) : ℕ → ℕ → ℕ
  | 0, buf => buf
  | left + 1, buf =>
      if byteAt mem buf ≠ 0 ∧ isControl (byteAt mem buf) = true then skipControl mem left (buf + 1)
      else buf

/-- The string at an address. -/
def cString (mem : List UInt8) (buf : ℕ) : List UInt8 :=
  (mem.drop buf).takeWhile (· ≠ 0)

/-- `strstr( buf, "\n" )`. -/
def strstrNewline (mem : List UInt8) (buf : ℕ) : Option ℕ :=
  if 10 ∈ cString mem buf then some (buf + (cString mem buf).idxOf 10) else none

/-- The loop that overwrites the carriage returns in front of an address. -/
def stripReturns : ℕ → List UInt8 → List UInt8
  | 0, mem => mem
  | bufloc + 1, mem =>
      if byteAt mem bufloc = 13 then stripReturns bufloc (mem.set bufloc 0) else mem

/-- The loop over the lines, with the lines that it enqueues and the remainder that it keeps.  It
makes at most as many turns as there are bytes. -/
def splitLines (bufend : ℕ) : ℕ → List UInt8 → ℕ → List (List UInt8) × Option (List UInt8)
  | 0, _, _ => ([], none)
  | turns + 1, mem, buf =>
      if buf < bufend then
        let buf := skipControl mem (bufend - buf) buf
        if byteAt mem buf = 0 ∨ bufend ≤ buf then splitLines bufend turns mem (buf + 1)
        else
          match strstrNewline mem buf with
          | some bufloc =>
              let mem := stripReturns bufloc (mem.set bufloc 0)
              let rest := splitLines bufend turns mem (bufloc + 1)
              (cString mem buf :: rest.1, rest.2)
          -- the next turn begins behind `bufend`
          | none => ([], some ((mem.drop buf).take (bufend - buf)))
      else ([], none)

/-! ## Single turns -/

section Turns

variable {bufend turns : ℕ} {pre tail : List UInt8} {b : UInt8}

theorem byteAt_append (pre tail : List UInt8) : byteAt (pre ++ b :: tail) pre.length = b := by
  unfold byteAt
  rw [List.getD_eq_getElem?_getD, List.getElem?_append_right le_rfl, Nat.sub_self]
  rfl

theorem set_append (pre tail : List UInt8) (c : UInt8) :
    (pre ++ b :: tail).set pre.length c = pre ++ c :: tail := by
  rw [List.set_append_right _ _ le_rfl, Nat.sub_self, List.set_cons_zero]

theorem splitLines_done (turns : ℕ) (mem : List UInt8) {buf : ℕ} (hbuf : bufend ≤ buf) :
    splitLines bufend turns mem buf = ([], none) := by
  cases turns with
  | zero => rfl
  | succ turns =>
      unfold splitLines
      rw [if_neg (not_lt.mpr hbuf)]

/-- A control character is skipped. -/
theorem splitLines_control (hlt : pre.length < bufend) (hne : b ≠ 0)
    (hcontrol : isControl b = true) :
    splitLines bufend (turns + 1) (pre ++ b :: tail) pre.length =
      splitLines bufend (turns + 1) (pre ++ b :: tail) (pre.length + 1) := by
  have hleft : bufend - pre.length = bufend - (pre.length + 1) + 1 := by omega
  have hskip : skipControl (pre ++ b :: tail) (bufend - pre.length) pre.length =
      skipControl (pre ++ b :: tail) (bufend - (pre.length + 1)) (pre.length + 1) := by
    rw [hleft, skipControl, byteAt_append, if_pos ⟨hne, hcontrol⟩]
  rcases Nat.lt_or_ge (pre.length + 1) bufend with hnext | hnext
  · conv => lhs; unfold splitLines
    conv => rhs; unfold splitLines
    rw [if_pos hlt, if_pos hnext, hskip]
  · rw [splitLines_done _ _ hnext, splitLines, if_pos hlt, hskip, Nat.sub_eq_zero_of_le hnext]
    dsimp only
    rw [skipControl, if_pos (.inr hnext), splitLines_done _ _ (Nat.le_succ_of_le hnext)]

/-- A NUL takes a turn. -/
theorem splitLines_nul (hlt : pre.length < bufend) :
    splitLines bufend (turns + 1) (pre ++ 0 :: tail) pre.length =
      splitLines bufend turns (pre ++ 0 :: tail) (pre.length + 1) := by
  have hskip : skipControl (pre ++ 0 :: tail) (bufend - pre.length) pre.length = pre.length := by
    cases bufend - pre.length with
    | zero => rfl
    | succ left => rw [skipControl, byteAt_append, if_neg fun h ↦ h.1 rfl]
  rw [splitLines, if_pos hlt, hskip]
  dsimp only
  rw [byteAt_append, if_pos (.inl rfl)]

theorem isControl_zero : isControl 0 = true := by decide

/-- Any other byte begins a line. -/
theorem splitLines_begin (turns : ℕ) (tail : List UInt8) (hlt : pre.length < bufend)
    (hcontrol : isControl b = false) :
    splitLines bufend (turns + 1) (pre ++ b :: tail) pre.length =
      match strstrNewline (pre ++ b :: tail) pre.length with
      | some bufloc =>
          let mem := stripReturns bufloc ((pre ++ b :: tail).set bufloc 0)
          let rest := splitLines bufend turns mem (bufloc + 1)
          (cString mem pre.length :: rest.1, rest.2)
      | none => ([], some ((b :: tail).take (bufend - pre.length))) := by
  have hskip : skipControl (pre ++ b :: tail) (bufend - pre.length) pre.length = pre.length := by
    cases bufend - pre.length with
    | zero => rfl
    | succ left =>
        rw [skipControl, byteAt_append, hcontrol, if_neg fun h ↦ Bool.false_ne_true h.2]
  have hne : b ≠ 0 := by
    rintro rfl
    rw [isControl_zero] at hcontrol
    cases hcontrol
  have hstop : ¬ (b = 0 ∨ bufend ≤ pre.length) := not_or.mpr ⟨hne, not_le.mpr hlt⟩
  rw [splitLines, if_pos hlt, hskip]
  dsimp only
  rw [byteAt_append, if_neg hstop, List.drop_left]

end Turns

/-! ## Carriage returns -/

theorem stripReturns_before (pre tail : List UInt8) :
    ∃ pre', pre'.length = pre.length ∧ stripReturns pre.length (pre ++ tail) = pre' ++ tail := by
  induction pre using List.reverseRecOn generalizing tail with
  | nil => exact ⟨[], rfl, rfl⟩
  | append_singleton pre x ih =>
      rw [List.length_append, List.append_assoc]
      change ∃ pre', _ ∧ stripReturns (pre.length + 1) (pre ++ x :: tail) = _
      rw [stripReturns, byteAt_append, set_append]
      split_ifs with hx
      · obtain ⟨pre', hlength, hstrip⟩ := ih (0 :: tail)
        refine ⟨pre' ++ [0], ?_, ?_⟩
        · rw [List.length_append, hlength]
          rfl
        · rw [hstrip, List.append_assoc]
          rfl
      · refine ⟨pre ++ [x], ?_, ?_⟩
        · rw [List.length_append]
        · rw [List.append_assoc]
          rfl

/-- The carriage returns at the end of a piece become NULs. -/
theorem stripReturns_eq (pre piece tail : List UInt8) : ∃ pre' k, pre'.length = pre.length ∧
    stripReturns (pre.length + piece.length) (pre ++ (piece ++ tail)) =
      pre' ++ (piece.rdropWhile (· = 13) ++ (List.replicate k 0 ++ tail)) ∧
    (piece.rdropWhile (· = 13)).length + k = piece.length := by
  induction piece using List.reverseRecOn generalizing tail with
  | nil =>
      obtain ⟨pre', hlength, hstrip⟩ := stripReturns_before pre tail
      exact ⟨pre', 0, hlength, hstrip, rfl⟩
  | append_singleton piece x ih =>
      have hmem : pre ++ (piece ++ [x] ++ tail) = (pre ++ piece) ++ x :: tail := by
        simp only [List.append_assoc, List.singleton_append]
      have hindex : pre.length + (piece ++ [x]).length = (pre ++ piece).length + 1 := by
        simp only [List.length_append, List.length_singleton]
        omega
      rw [hmem, hindex, stripReturns, byteAt_append, set_append]
      by_cases hx : x = 13
      · obtain ⟨pre', k, hlength, hstrip, hk⟩ := ih (0 :: tail)
        have hdrop : (piece ++ [x]).rdropWhile (· = 13) = piece.rdropWhile (· = 13) :=
          List.rdropWhile_concat_pos _ _ _ (decide_eq_true hx)
        rw [if_pos hx, List.length_append, List.append_assoc, hstrip, hdrop]
        refine ⟨pre', k + 1, hlength, ?_, ?_⟩
        · rw [List.replicate_succ', List.append_assoc]
          rfl
        · rw [List.length_append, ← Nat.add_assoc, hk]
          rfl
      · have hdrop : (piece ++ [x]).rdropWhile (· = 13) = piece ++ [x] :=
          List.rdropWhile_concat_neg _ _ _ (by rwa [decide_eq_true_eq])
        rw [if_neg hx, hdrop]
        refine ⟨pre, 0, rfl, ?_, rfl⟩
        simp only [List.append_assoc, List.replicate_zero, List.singleton_append, List.nil_append]

/-! ## Lines -/

/-- A piece without its leading control characters and its trailing carriage returns. -/
def clean (piece : List UInt8) : List UInt8 :=
  (piece.dropWhile isControl).rdropWhile (· = 13)

section Lines

variable {bufend turns : ℕ} {pre piece : List UInt8}

/-- The first byte that is kept. -/
theorem isControl_of_dropWhile {b : UInt8} {rest : List UInt8}
    (h : piece.dropWhile isControl = b :: rest) : isControl b = false := by
  have hfirst : (b :: rest).dropWhile isControl = b :: rest := by
    rw [← h]
    exact List.dropWhile_idempotent ..
  by_contra hcontrol
  rw [Bool.not_eq_false] at hcontrol
  rw [List.dropWhile_cons_of_pos hcontrol] at hfirst
  have hle := (List.dropWhile_suffix isControl (l := rest)).length_le
  rw [hfirst, List.length_cons] at hle
  omega

/-- The string at a piece without a NUL goes on behind it. -/
theorem cString_open (pre after : List UInt8) (hnul : 0 ∉ piece) :
    cString (pre ++ (piece ++ after)) pre.length = piece ++ after.takeWhile (· ≠ 0) := by
  unfold cString
  rw [List.drop_left, List.takeWhile_append_of_pos]
  intro x hx
  rw [decide_eq_true_eq]
  rintro rfl
  exact hnul hx

theorem cString_append (pre tail : List UInt8) (hnul : 0 ∉ piece) :
    cString (pre ++ (piece ++ 0 :: tail)) pre.length = piece := by
  rw [cString_open pre _ hnul, List.takeWhile_cons_of_neg (by decide), List.append_nil]

/-- A newline is found where no NUL is in front of it. -/
theorem strstrNewline_found (pre tail : List UInt8) (hnewline : 10 ∉ piece) (hnul : 0 ∉ piece) :
    strstrNewline (pre ++ (piece ++ 10 :: tail)) pre.length = some (pre.length + piece.length) := by
  have hstring : cString (pre ++ (piece ++ 10 :: tail)) pre.length =
      piece ++ 10 :: tail.takeWhile (· ≠ 0) := by
    rw [cString_open pre _ hnul, List.takeWhile_cons_of_pos (by decide)]
  unfold strstrNewline
  rw [hstring, if_pos (List.mem_append_right _ List.mem_cons_self),
    List.idxOf_append_of_notMem hnewline, List.idxOf_cons_self, Nat.add_zero]

/-- A line is cut out, and what follows it stays. -/
theorem splitLines_found (turns : ℕ) (tail : List UInt8) (hlt : pre.length < bufend)
    (hnewline : 10 ∉ piece) (hnul : 0 ∉ piece)
    (hfirst : piece.dropWhile isControl = piece) : ∃ pre',
    pre'.length = pre.length + piece.length + 1 ∧
      splitLines bufend (turns + 1) (pre ++ (piece ++ 10 :: tail)) pre.length =
        (piece.rdropWhile (· = 13) :: (splitLines bufend turns (pre' ++ tail) pre'.length).1,
          (splitLines bufend turns (pre' ++ tail) pre'.length).2) := by
  obtain ⟨pre', k, hlength, hstrip, hk⟩ := stripReturns_eq pre piece (0 :: tail)
  have hset : (pre ++ (piece ++ 10 :: tail)).set (pre.length + piece.length) 0 =
      pre ++ (piece ++ 0 :: tail) := by
    rw [← List.append_assoc, ← List.length_append, set_append, List.append_assoc]
  have hbegin : ∃ b rest, piece ++ 10 :: tail = b :: rest ∧ isControl b = false := by
    cases piece with
    | nil => exact ⟨10, tail, rfl, by decide⟩
    | cons b rest =>
        exact ⟨b, rest ++ 10 :: tail, rfl, isControl_of_dropWhile hfirst⟩
  obtain ⟨b, rest, hmem, hcontrol⟩ := hbegin
  have hfound := strstrNewline_found pre tail hnewline hnul
  have hline := splitLines_begin turns rest hlt hcontrol
  rw [← hmem, hfound] at hline
  dsimp only at hline
  rw [hset, hstrip] at hline
  set line := piece.rdropWhile (· = 13)
  have hline' : 0 ∉ line := fun hmem ↦ hnul ((List.rdropWhile_prefix _ _).subset hmem)
  have hstring : cString
      (pre' ++ (line ++ (List.replicate k 0 ++ 0 :: tail))) pre.length = line := by
    have hzeros : List.replicate k 0 ++ 0 :: tail = 0 :: (List.replicate k 0 ++ tail) := by
      rw [← List.cons_append, ← List.replicate_succ, List.replicate_succ', List.append_assoc]
      rfl
    rw [hzeros, ← hlength, cString_append pre' _ hline']
  have hmem' : pre' ++ (line ++ (List.replicate k 0 ++ 0 :: tail)) =
      pre' ++ (line ++ (List.replicate k 0 ++ [0])) ++ tail := by
    simp only [List.append_assoc, List.singleton_append]
  have hpast : (pre' ++ (line ++ (List.replicate k 0 ++ [0]))).length =
      pre.length + piece.length + 1 := by
    simp only [List.length_append, List.length_replicate, List.length_singleton]
    omega
  refine ⟨pre' ++ (line ++ (List.replicate k 0 ++ [0])), hpast, ?_⟩
  rw [hline, hstring, hmem', hpast]

/-- The control characters and NULs in front of a piece are skipped. -/
theorem splitLines_skip (tail : List UInt8) (hle : pre.length + piece.length ≤ bufend)
    (hall : ∀ b ∈ piece, isControl b = true) (hturns : piece.length ≤ turns) : ∃ turns',
    turns ≤ turns' + piece.length ∧
      splitLines bufend turns (pre ++ (piece ++ tail)) pre.length =
        splitLines bufend turns' (pre ++ (piece ++ tail)) (pre.length + piece.length) := by
  induction piece generalizing pre turns with
  | nil => exact ⟨turns, le_rfl, rfl⟩
  | cons b piece ih =>
      obtain ⟨hb, hall⟩ := List.forall_mem_cons.mp hall
      rw [List.length_cons] at hle hturns
      obtain ⟨turns, rfl⟩ : ∃ k, turns = k + 1 := ⟨turns - 1, by omega⟩
      have hmem : pre ++ (b :: piece ++ tail) = (pre ++ [b]) ++ (piece ++ tail) := by
        rw [List.append_assoc]
        rfl
      have hlength : (pre ++ [b]).length = pre.length + 1 := List.length_append
      have hnext : ∀ turns₁, piece.length ≤ turns₁ → ∃ turns', turns₁ ≤ turns' + piece.length ∧
          splitLines bufend turns₁ (pre ++ (b :: piece ++ tail)) (pre.length + 1) =
            splitLines bufend turns' (pre ++ (b :: piece ++ tail))
              (pre.length + (piece.length + 1)) := by
        intro turns₁ hturns₁
        obtain ⟨turns', hused, hskip⟩ := @ih turns₁ (pre ++ [b]) (by omega) hall hturns₁
        rw [← hmem, hlength] at hskip
        refine ⟨turns', hused, hskip.trans ?_⟩
        congr 1
        omega
      by_cases hzero : b = 0
      · subst hzero
        obtain ⟨turns', hused, hskip⟩ := hnext turns (by omega)
        refine ⟨turns', by rw [List.length_cons]; omega, ?_⟩
        exact (splitLines_nul (by omega)).trans hskip
      · obtain ⟨turns', hused, hskip⟩ := hnext (turns + 1) (by omega)
        refine ⟨turns', by rw [List.length_cons]; omega, ?_⟩
        exact (splitLines_control (by omega) hzero hb).trans hskip

/-- The loop comes to the first byte of a piece that it does not skip. -/
theorem splitLines_core (tail : List UInt8) (hle : pre.length + piece.length ≤ bufend)
    (hturns : piece.length ≤ turns) :
    ∃ pre' turns', pre'.length + (piece.dropWhile isControl).length = pre.length + piece.length ∧
      turns ≤ turns' + (pre'.length - pre.length) ∧ pre.length ≤ pre'.length ∧
      splitLines bufend turns (pre ++ (piece ++ tail)) pre.length =
        splitLines bufend turns' (pre' ++ (piece.dropWhile isControl ++ tail)) pre'.length := by
  set front := piece.takeWhile isControl
  set core := piece.dropWhile isControl
  have hpiece : front ++ core = piece := List.takeWhile_append_dropWhile
  have hlength : front.length + core.length = piece.length := by rw [← hpiece, List.length_append]
  have hall : ∀ b ∈ front, isControl b = true := fun b hb ↦ List.mem_takeWhile_imp hb
  have hfront : pre.length + front.length ≤ bufend := by omega
  have hturns' : front.length ≤ turns := by omega
  obtain ⟨turns', hused, hskip⟩ := splitLines_skip (core ++ tail) hfront hall hturns'
  refine ⟨pre ++ front, turns', ?_, ?_, ?_, ?_⟩
  · rw [List.length_append]
    omega
  · rw [List.length_append]
    omega
  · rw [List.length_append]
    omega
  · rw [← hpiece, List.append_assoc, hskip, List.append_assoc, List.length_append]

/-- A piece in which no NUL follows the first byte that is kept becomes a line. -/
theorem splitLines_piece (tail : List UInt8) (hnewline : 10 ∉ piece)
    (hnul : 0 ∉ piece.dropWhile isControl)
    (hlt : pre.length + piece.length < bufend) (hturns : piece.length < turns) : ∃ pre' turns',
    pre'.length = pre.length + piece.length + 1 ∧ turns ≤ turns' + (piece.length + 1) ∧
      splitLines bufend turns (pre ++ (piece ++ 10 :: tail)) pre.length =
        (clean piece :: (splitLines bufend turns' (pre' ++ tail) pre'.length).1,
          (splitLines bufend turns' (pre' ++ tail) pre'.length).2) := by
  obtain ⟨pre₁, turns₁, hlength, hused, hge, hcore⟩ :=
    splitLines_core (10 :: tail) hlt.le hturns.le
  obtain ⟨turns₂, rfl⟩ : ∃ k, turns₁ = k + 1 := ⟨turns₁ - 1, by omega⟩
  have hnewline' : 10 ∉ piece.dropWhile isControl := fun hmem ↦
    hnewline ((List.dropWhile_suffix _).subset hmem)
  have hlt₁ : pre₁.length < bufend := by omega
  obtain ⟨pre', hlength', hfound⟩ := splitLines_found turns₂ tail hlt₁ hnewline' hnul
    (List.dropWhile_idempotent ..)
  exact ⟨pre', turns₂, by omega, by omega, hcore.trans hfound⟩

/-- The string at a piece that ends before its newline. -/
theorem cString_nul (pre tail : List UInt8) (hnul : 0 ∈ piece) :
    cString (pre ++ (piece ++ tail)) pre.length = piece.takeWhile (· ≠ 0) := by
  unfold cString
  rw [List.drop_left]
  induction piece with
  | nil => cases hnul
  | cons b piece ih =>
      by_cases hb : b = 0
      · subst hb
        rfl
      · rw [List.cons_append, List.takeWhile_cons_of_pos (by rwa [decide_eq_true_eq]),
          List.takeWhile_cons_of_pos (by rwa [decide_eq_true_eq]),
          ih ((List.mem_cons.mp hnul).resolve_left (Ne.symm hb))]

theorem strstrNewline_nul (pre tail : List UInt8) (hnewline : 10 ∉ piece) (hnul : 0 ∈ piece) :
    strstrNewline (pre ++ (piece ++ tail)) pre.length = none := by
  unfold strstrNewline
  rw [cString_nul pre tail hnul]
  exact if_neg fun hmem ↦ hnewline ((List.takeWhile_prefix _).subset hmem)

/-- Where a NUL follows the first byte that is kept, the newline stays in the remainder. -/
theorem splitLines_stuck (tail : List UInt8) (hnewline : 10 ∉ piece)
    (hnul : 0 ∈ piece.dropWhile isControl)
    (hlt : pre.length + piece.length < bufend) (hturns : piece.length < turns) :
    ∃ remain, splitLines bufend turns (pre ++ (piece ++ 10 :: tail)) pre.length =
      ([], some remain) ∧ 10 ∈ remain := by
  obtain ⟨pre₁, turns₁, hlength, hused, hge, hcore⟩ :=
    splitLines_core (10 :: tail) hlt.le hturns.le
  obtain ⟨turns₂, rfl⟩ : ∃ k, turns₁ = k + 1 := ⟨turns₁ - 1, by omega⟩
  have hnewline' : 10 ∉ piece.dropWhile isControl := fun hmem ↦
    hnewline ((List.dropWhile_suffix _).subset hmem)
  have hnone := strstrNewline_nul pre₁ (10 :: tail) hnewline' hnul
  rw [hcore]
  cases hcase : piece.dropWhile isControl with
  | nil =>
      rw [hcase] at hnul
      cases hnul
  | cons b rest =>
      rw [hcase] at hnone hlength
      rw [List.cons_append, splitLines_begin turns₂ _ (by omega) (isControl_of_dropWhile hcase),
        ← List.cons_append, hnone]
      refine ⟨_, rfl, ?_⟩
      obtain ⟨k, hk⟩ : ∃ k, bufend - pre₁.length = (b :: rest).length + (k + 1) :=
        ⟨bufend - pre₁.length - (b :: rest).length - 1, by omega⟩
      rw [hk, List.take_length_add_append]
      exact List.mem_append_right _ List.mem_cons_self

theorem takeWhile_quiet {after : List UInt8} (hquiet : byteAt after 0 = 0) :
    after.takeWhile (· ≠ 0) = [] := by
  cases after with
  | nil => rfl
  | cons b after =>
      obtain rfl : b = 0 := hquiet
      rfl

/-- The rest behind the last newline.  What follows the buffer is only read up to a NUL. -/
theorem splitLines_rest (after : List UInt8) (hnewline : 10 ∉ piece)
    (hend : bufend = pre.length + piece.length) (hturns : piece.length ≤ turns) :
    (∀ remain ∈ (splitLines bufend turns (pre ++ (piece ++ after)) pre.length).2, 10 ∉ remain) ∧
      (byteAt after 0 = 0 → splitLines bufend turns (pre ++ (piece ++ after)) pre.length =
        ([], if piece.dropWhile isControl = [] then none
          else some (piece.dropWhile isControl))) := by
  obtain ⟨pre₁, turns₁, hlength, hused, hge, hcore⟩ := splitLines_core after hend.ge hturns
  have hnewline' : 10 ∉ piece.dropWhile isControl := fun hmem ↦
    hnewline ((List.dropWhile_suffix _).subset hmem)
  rw [hcore]
  cases hcase : piece.dropWhile isControl with
  | nil =>
      rw [hcase] at hlength
      have hdone : bufend ≤ pre₁.length := by
        rw [List.length_nil] at hlength
        omega
      rw [splitLines_done _ _ hdone]
      exact ⟨fun _ hmem ↦ (by cases hmem), fun _ ↦ rfl⟩
  | cons b rest =>
      rw [hcase] at hlength hnewline'
      have hpos : 0 < (b :: rest).length := List.length_pos_of_ne_nil (List.cons_ne_nil _ _)
      obtain ⟨turns₂, rfl⟩ : ∃ k, turns₁ = k + 1 := ⟨turns₁ - 1, by omega⟩
      have hkept : (b :: (rest ++ after)).take (bufend - pre₁.length) = b :: rest := by
        rw [← List.cons_append]
        exact List.take_left' (by omega)
      rw [List.cons_append, splitLines_begin turns₂ _ (by omega) (isControl_of_dropWhile hcase),
        hkept, ← List.cons_append, if_neg (List.cons_ne_nil _ _)]
      by_cases hnul : 0 ∈ b :: rest
      · rw [strstrNewline_nul pre₁ after hnewline' hnul]
        refine ⟨?_, fun _ ↦ rfl⟩
        intro remain hremain
        obtain rfl := Option.some.inj hremain
        exact hnewline'
      · have hstring := cString_open pre₁ after hnul
        unfold strstrNewline
        rw [hstring]
        split_ifs with hmem
        · -- the newline is behind the buffer, and nothing is kept
          rw [List.idxOf_append_of_notMem hnewline']
          dsimp only
          rw [splitLines_done _ _ (by omega)]
          refine ⟨fun _ hremain ↦ (by cases hremain), ?_⟩
          intro hquiet
          rw [takeWhile_quiet hquiet, List.append_nil] at hmem
          exact absurd hmem hnewline'
        · refine ⟨?_, fun _ ↦ rfl⟩
          intro remain hremain
          obtain rfl := Option.some.inj hremain
          exact hnewline'

/-! ## All pieces -/

/-- The pieces with their newlines. -/
def joined (pieces : List (List UInt8)) : List UInt8 :=
  pieces.flatMap fun piece ↦ piece ++ [10]

/-- A piece whose newline is found. -/
def Whole (piece : List UInt8) : Prop :=
  10 ∉ piece ∧ 0 ∉ piece.dropWhile isControl

theorem joined_cons (piece : List UInt8) (pieces : List (List UInt8)) (tail : List UInt8) :
    joined (piece :: pieces) ++ tail = piece ++ 10 :: (joined pieces ++ tail) := by
  unfold joined
  rw [List.flatMap_cons, List.append_assoc, List.append_assoc]
  rfl

theorem length_joined_cons (piece : List UInt8) (pieces : List (List UInt8)) :
    (joined (piece :: pieces)).length = piece.length + 1 + (joined pieces).length := by
  have hcons := joined_cons piece pieces []
  rw [List.append_nil, List.append_nil] at hcons
  rw [hcons, List.length_append, List.length_cons]
  omega

/-- Whole pieces become lines. -/
theorem splitLines_pieces {pieces : List (List UInt8)} {rest : List UInt8} (after : List UInt8)
    (hpieces : ∀ piece ∈ pieces, Whole piece)
    (hend : bufend = pre.length + ((joined pieces).length + rest.length))
    (hturns : (joined pieces).length + rest.length ≤ turns) : ∃ pre' turns',
    bufend = pre'.length + rest.length ∧ rest.length ≤ turns' ∧
      splitLines bufend turns (pre ++ (joined pieces ++ (rest ++ after))) pre.length =
        (pieces.map clean ++ (splitLines bufend turns' (pre' ++ (rest ++ after)) pre'.length).1,
          (splitLines bufend turns' (pre' ++ (rest ++ after)) pre'.length).2) := by
  induction pieces generalizing pre turns with
  | nil =>
      have hnil : (joined []).length = 0 := rfl
      exact ⟨pre, turns, by omega, by omega, rfl⟩
  | cons piece pieces ih =>
      obtain ⟨⟨hnewline, hnul⟩, hpieces⟩ := List.forall_mem_cons.mp hpieces
      rw [length_joined_cons] at hend hturns
      obtain ⟨pre₁, turns₁, hlength, hused, hline⟩ :=
        splitLines_piece (joined pieces ++ (rest ++ after)) hnewline hnul
          (by omega : pre.length + piece.length < bufend) (by omega : piece.length < turns)
      obtain ⟨pre', turns', hend', hturns', hlines⟩ := @ih turns₁ pre₁ hpieces (by omega) (by omega)
      refine ⟨pre', turns', hend', hturns', ?_⟩
      rw [joined_cons, hline, hlines]
      rfl

/-- A piece that is not whole stays in the remainder with its newline. -/
theorem splitLines_not_whole {pieces : List (List UInt8)} {rest : List UInt8} (after : List UInt8)
    (hpieces : ∀ piece ∈ pieces, 10 ∉ piece) (hbad : ∃ piece ∈ pieces, ¬ Whole piece)
    (hend : bufend = pre.length + ((joined pieces).length + rest.length))
    (hturns : (joined pieces).length + rest.length ≤ turns) :
    ∃ remain ∈ (splitLines bufend turns (pre ++ (joined pieces ++ (rest ++ after))) pre.length).2,
      10 ∈ remain := by
  induction pieces generalizing pre turns with
  | nil =>
      obtain ⟨piece, hmem, -⟩ := hbad
      cases hmem
  | cons piece pieces ih =>
      obtain ⟨hnewline, hpieces⟩ := List.forall_mem_cons.mp hpieces
      rw [length_joined_cons] at hend hturns
      rw [joined_cons]
      have hlt : pre.length + piece.length < bufend := by omega
      by_cases hnul : 0 ∈ piece.dropWhile isControl
      · obtain ⟨remain, hstuck, hmem⟩ :=
            splitLines_stuck (joined pieces ++ (rest ++ after)) hnewline
          hnul hlt (by omega : piece.length < turns)
        rw [hstuck]
        exact ⟨remain, rfl, hmem⟩
      · obtain ⟨pre₁, turns₁, hlength, hused, hline⟩ :=
          splitLines_piece (joined pieces ++ (rest ++ after)) hnewline hnul hlt
            (by omega : piece.length < turns)
        have hbad' : ∃ piece ∈ pieces, ¬ Whole piece := by
          obtain ⟨other, hmem, hother⟩ := hbad
          rcases List.mem_cons.mp hmem with rfl | hmem
          · exact absurd ⟨hnewline, hnul⟩ hother
          · exact ⟨other, hmem, hother⟩
        rw [hline]
        exact @ih turns₁ pre₁ hpieces hbad' (by omega) (by omega)

end Lines

end HavokMud.Input
