import HavokMud.Mysql.Quote

/-!
# Assembling a statement

`db_query` copies a query pattern into `sqlbuf` and puts an argument in the place of every `?`.  It
compares the length of each piece with `buflen`, but takes only the length of `NULL` off it.  So the
pieces may fit one by one while their sum does not, and the text behind the last `?` is cut off
without an error.
-/

namespace HavokMud.Mysql

/-! ## The source -/

/-- An element of the array of `MYSQL_BIND`. -/
inductive Bind
  | null
  | tiny (n : Int8)
  | short (n : Int16)
  | long (n : Int32)
  | longlong (n : Int64)
  /-- The string and blob types, which share a case. -/
  | string (buffer : Option (List UInt8))
  /-- The types left to `default`. -/
  | other
deriving DecidableEq

/-- What a call does: it returns NULL at a piece that is too long for `buflen`, it hands the text to
`mysql_query`, or it stays in its loop. -/
inductive Outcome
  | overflow (sqlbuf : List UInt8)
  | send (sqlbuf : List UInt8)
  | endless
deriving DecidableEq

/-- A length as an `int`. -/
@[irreducible] def cInt (n : ℕ) : ℤ :=
  Int.bmod n (2 ^ 32)

/-- An `int` passed as a `size_t`. -/
@[irreducible] def sizeT (n : ℤ) : ℕ :=
  (n % 2 ^ 64).toNat

def strncat (dest src : List UInt8) (n : ℤ) : List UInt8 :=
  dest ++ src.take (sizeT n)

/-- The offset of the first `?`. -/
def strchr (query : List UInt8) : Option ℕ :=
  query.findIdx? fun c ↦ c = 63

/-- A number as `%d` and `%lld` print it. -/
def decimal (n : ℤ) : List UInt8 :=
  (if n < 0 then [45] else []) ++ (Nat.toDigits 10 n.natAbs).map fun c ↦ UInt8.ofNat c.toNat

/-- The text `NULL`. -/
def nullText : List UInt8 :=
  [78, 85, 76, 76]

/-- The check of a length and the append, between quotes when `string` is set or `buf` is empty. -/
def appendText (len : ℕ) (delimiter source : List UInt8) (buflen : ℤ) (sqlbuf : List UInt8) :
    Option (ℤ × List UInt8) :=
  if buflen < cInt len then none
  else some (buflen, strncat (sqlbuf ++ delimiter) source (cInt len) ++ delimiter)

def appendNumber (n : ℤ) : ℤ → List UInt8 → Option (ℤ × List UInt8) :=
  appendText (decimal n).length [] (decimal n)

def appendQuoted (string : List UInt8) : ℤ → List UInt8 → Option (ℤ × List UInt8) :=
  appendText (string.length + 2) [39] string

section Assembly

-- The answers of `db_quote`.  They share strings up to case and so may differ from call to call.
variable (quote : ℕ → List UInt8 → List UInt8)

/-- One argument: the new `buflen` and `sqlbuf`, or nothing on an overflow. -/
def appendArg (call : ℕ) (arg : Bind) (buflen : ℤ) (sqlbuf : List UInt8) :
    Option (ℤ × List UInt8) :=
  match arg with
  | .null => if buflen < 4 then none else some (buflen - 4, strncat sqlbuf nullText 4)
  | .tiny n => appendQuoted (quote call (decimal n.toInt)) buflen sqlbuf
  | .short n => appendNumber n.toInt buflen sqlbuf
  | .long n => appendNumber n.toInt buflen sqlbuf
  | .longlong n => appendNumber n.toInt buflen sqlbuf
  | .string (some buffer) => appendQuoted (quote call buffer) buflen sqlbuf
  | .string none => appendText 2 [39] [] buflen sqlbuf
  | .other => some (buflen, sqlbuf)

/-- `args++`, which `default` skips. -/
def advance (arg : Bind) (args : List Bind) : List Bind :=
  if arg = .other then arg :: args else args

/-- The loop, with `left` arguments before `count` exceeds `arg_count`. -/
def assemble : ℕ → List UInt8 → List Bind → ℤ → List UInt8 → Outcome
  | left, query, args, buflen, sqlbuf =>
      match strchr query with
      | none => .send (strncat sqlbuf query buflen)
      | some insert =>
          let len := cInt insert
          if buflen < len then .overflow sqlbuf
          else
            let sqlbuf := strncat sqlbuf query len
            match left, args with
            | left + 1, arg :: args =>
                match appendArg quote left arg buflen sqlbuf with
                | none => .overflow sqlbuf
                | some (buflen, sqlbuf) =>
                    assemble left (query.drop (insert + 1)) (advance arg args) buflen sqlbuf
            | _, _ => .send sqlbuf

/-- `db_query` up to the call of `mysql_query`, with a buffer of `size` bytes.  Without an array of
arguments a `?` is found again and again. -/
def dbQuery (size : ℕ) (query : List UInt8) : Option (List Bind) → Outcome
  | none =>
      match strchr query with
      | none => .send (strncat [] query (size - 1))
      | some _ => .endless
  | some args => assemble quote args.length query args (size - 1) []

/-! ## The statement -/

/-- The complete text of an argument. -/
def argText (call : ℕ) : Bind → List UInt8
  | .null => nullText
  | .tiny n => literal (quote call (decimal n.toInt))
  | .short n => decimal n.toInt
  | .long n => decimal n.toInt
  | .longlong n => decimal n.toInt
  | .string buffer => literal ((buffer.map (quote call)).getD [])
  | .other => []

/-- The complete statement: it ends at a `?` that no argument is left for. -/
def statement : ℕ → List UInt8 → List Bind → List UInt8
  | left, query, args =>
      match strchr query with
      | none => query
      | some insert =>
          query.take insert ++
            match left, args with
            | left + 1, arg :: args =>
                argText quote left arg ++ statement left (query.drop (insert + 1))
                  (advance arg args)
            | _, _ => []

/-- The text fits into the buffer with its NUL, and a statement that does not fit is not sent. -/
def Bounded (size : ℕ) (statement : List UInt8) : Outcome → Prop
  | .overflow sqlbuf => sqlbuf.length + 1 ≤ size
  | .send sqlbuf => sqlbuf.length + 1 ≤ size ∧ statement.length + 1 ≤ size
  | .endless => False

/-! ## Pieces -/

/-- A text that is compared with `buflen` and appended. -/
structure Piece where
  /-- The length that is compared and passed to `strncat`. -/
  len : ℕ
  /-- The text that is passed to `strncat`. -/
  source : List UInt8
  /-- The quotes on both sides. -/
  delimiter : List UInt8
  /-- What is taken off `buflen`. -/
  spent : ℕ

namespace Piece

/-- The complete text. -/
def whole (p : Piece) : List UInt8 :=
  p.delimiter ++ p.source.take p.len ++ p.delimiter

/-- The text that is appended. -/
def appended (p : Piece) : List UInt8 :=
  p.delimiter ++ p.source.take (sizeT (cInt p.len)) ++ p.delimiter

end Piece

/-- The text of the pattern before a `?` at `insert`. -/
def patternPiece (query : List UInt8) (insert : ℕ) : Piece :=
  ⟨insert, query, [], 0⟩

def numberPiece (n : ℤ) : Piece :=
  ⟨(decimal n).length, decimal n, [], 0⟩

def quotedPiece (string : List UInt8) : Piece :=
  ⟨string.length + 2, string, [39], 0⟩

def nullPiece : Piece :=
  ⟨4, nullText, [], 4⟩

def argPieces (call : ℕ) : Bind → List Piece
  | .null => [nullPiece]
  | .tiny n => [quotedPiece (quote call (decimal n.toInt))]
  | .short n => [numberPiece n.toInt]
  | .long n => [numberPiece n.toInt]
  | .longlong n => [numberPiece n.toInt]
  | .string buffer => [quotedPiece ((buffer.map (quote call)).getD [])]
  | .other => []

/-- The pieces of a call in their order. -/
def pieces : ℕ → List UInt8 → List Bind → List Piece
  | left, query, args =>
      match strchr query with
      | none => []
      | some insert =>
          patternPiece query insert ::
            match left, args with
            | left + 1, arg :: args =>
                argPieces quote left arg ++ pieces left (query.drop (insert + 1)) (advance arg args)
            | _, _ => []

/-- The pattern behind the last `?`, which is appended without a check. -/
def patternTail : ℕ → List UInt8 → List Bind → List UInt8
  | left, query, args =>
      match strchr query with
      | none => query
      | some insert =>
          match left, args with
          | left + 1, arg :: args =>
              patternTail left (query.drop (insert + 1)) (advance arg args)
          | _, _ => []

/-- The loop over pieces. -/
def pour (tail : List UInt8) : List Piece → ℤ → List UInt8 → Outcome
  | [], buflen, sqlbuf => .send (strncat sqlbuf tail buflen)
  | p :: rest, buflen, sqlbuf =>
      if buflen < cInt p.len then .overflow sqlbuf
      else pour tail rest (buflen - p.spent) (sqlbuf ++ p.appended)

/-- The outcome behind the check and the append of an argument. -/
def Outcome.after (tail sqlbuf : List UInt8) (rest : List Piece) :
    Option (ℤ × List UInt8) → Outcome
  | none => .overflow sqlbuf
  | some (buflen, sqlbuf) => pour tail rest buflen sqlbuf

variable {quote} {call left : ℕ} {arg : Bind} {args : List Bind} {buflen : ℤ}
  {query sqlbuf tail : List UInt8} {rest : List Piece} {p : Piece}

theorem cInt_eq {n : ℕ} (hn : n < 2 ^ 31) : cInt n = n := by
  unfold cInt
  apply Int.bmod_eq_of_le <;> omega

theorem sizeT_eq {n : ℕ} (hn : n < 2 ^ 31) : sizeT n = n := by
  unfold sizeT
  omega

theorem strncat_nil (dest : List UInt8) (n : ℤ) : strncat dest [] n = dest := by
  simp [strncat]

theorem pour_text (len : ℕ) (source delimiter : List UInt8) :
    pour tail (⟨len, source, delimiter, 0⟩ :: rest) buflen sqlbuf =
      .after tail sqlbuf rest (appendText len delimiter source buflen sqlbuf) := by
  rw [pour, appendText]
  by_cases h : buflen < cInt len
  · rw [if_pos h, if_pos h, Outcome.after]
  · rw [if_neg h, if_neg h, Outcome.after]
    simp [Piece.appended, strncat]

theorem pour_null : pour tail (nullPiece :: rest) buflen sqlbuf =
    .after tail sqlbuf rest (appendArg quote call .null buflen sqlbuf) := by
  have hlen : cInt nullPiece.len = 4 := cInt_eq (n := 4) (by decide)
  have hsize : sizeT 4 = 4 := sizeT_eq (n := 4) (by decide)
  rw [pour, appendArg, Piece.appended, hlen, hsize, strncat, hsize]
  by_cases h : buflen < 4
  · rw [if_pos h, if_pos h, Outcome.after]
  · rw [if_neg h, if_neg h, Outcome.after]
    rfl

/-- An argument pours its pieces. -/
theorem pour_argPieces : pour tail (argPieces quote call arg ++ rest) buflen sqlbuf =
    .after tail sqlbuf rest (appendArg quote call arg buflen sqlbuf) := by
  cases arg with
  | null => exact pour_null
  | tiny n => exact pour_text ..
  | short n => exact pour_text ..
  | long n => exact pour_text ..
  | longlong n => exact pour_text ..
  | string buffer =>
      cases buffer with
      | some buffer => exact pour_text ..
      | none => exact pour_text ..
  | other => rfl

/-- The loop pours the pieces of the call. -/
theorem assemble_eq_pour : assemble quote left query args buflen sqlbuf =
    pour (patternTail left query args) (pieces quote left query args) buflen sqlbuf := by
  have hpattern (query sqlbuf tail : List UInt8) (rest : List Piece) (insert : ℕ) (buflen : ℤ) :
      pour tail (patternPiece query insert :: rest) buflen sqlbuf =
        if buflen < cInt insert then Outcome.overflow sqlbuf
        else pour tail rest buflen (strncat sqlbuf query (cInt insert)) := by
    rw [patternPiece, pour_text, appendText]
    split_ifs with h
    · rfl
    · rw [Outcome.after, List.append_nil, List.append_nil]
  induction left generalizing query args buflen sqlbuf with
  | zero =>
      unfold assemble pieces patternTail
      cases strchr query with
      | none => rfl
      | some insert =>
          rw [hpattern, pour, strncat_nil]
  | succ left ih =>
      unfold assemble pieces patternTail
      cases strchr query with
      | none => rfl
      | some insert =>
          cases args with
          | nil => rw [hpattern, pour, strncat_nil]
          | cons arg args =>
              simp only [hpattern, pour_argPieces, ih]
              cases appendArg quote left arg buflen _ with
              | none => rfl
              | some result => rfl

/-- A piece of less than two gigabytes is compared and appended as it is. -/
structure Piece.Sound (p : Piece) : Prop where
  length_whole : p.whole.length = p.len
  spent_le : p.spent ≤ p.len

theorem Piece.Sound.appended_eq (hp : p.Sound) (hlen : p.whole.length < 2 ^ 31) :
    p.appended = p.whole := by
  rw [hp.length_whole] at hlen
  rw [Piece.appended, Piece.whole, cInt_eq hlen, sizeT_eq hlen]

theorem strchr_le {insert : ℕ} (h : strchr query = some insert) : insert ≤ query.length := by
  have hlt := (List.findIdx?_eq_some_iff_getElem.mp h).1
  exact hlt.le

theorem patternPiece_sound {insert : ℕ} (h : strchr query = some insert) :
    (patternPiece query insert).Sound where
  length_whole := by
    simpa [patternPiece, Piece.whole] using strchr_le h
  spent_le := Nat.zero_le _

theorem numberPiece_sound (n : ℤ) : (numberPiece n).Sound where
  length_whole := by simp [numberPiece, Piece.whole]
  spent_le := Nat.zero_le _

theorem quotedPiece_sound (string : List UInt8) : (quotedPiece string).Sound where
  length_whole := by simp [quotedPiece, Piece.whole]
  spent_le := Nat.zero_le _

theorem argPieces_sound (hp : p ∈ argPieces quote call arg) : p.Sound := by
  cases arg with
  | null =>
      obtain rfl := List.mem_singleton.mp hp
      exact ⟨rfl, le_rfl⟩
  | tiny n => exact List.mem_singleton.mp hp ▸ quotedPiece_sound _
  | short n => exact List.mem_singleton.mp hp ▸ numberPiece_sound _
  | long n => exact List.mem_singleton.mp hp ▸ numberPiece_sound _
  | longlong n => exact List.mem_singleton.mp hp ▸ numberPiece_sound _
  | string buffer => exact List.mem_singleton.mp hp ▸ quotedPiece_sound _
  | other => exact absurd hp List.not_mem_nil

theorem pieces_sound (hp : p ∈ pieces quote left query args) : p.Sound := by
  induction left generalizing query args with
  | zero =>
      unfold pieces at hp
      cases h : strchr query with
      | none => simp [h] at hp
      | some insert =>
          obtain rfl : p = patternPiece query insert := by simpa [h] using hp
          exact patternPiece_sound h
  | succ left ih =>
      unfold pieces at hp
      cases h : strchr query with
      | none => simp [h] at hp
      | some insert =>
          simp only [h, List.mem_cons] at hp
          rcases hp with rfl | hp
          · exact patternPiece_sound h
          · cases args with
            | nil => exact absurd hp List.not_mem_nil
            | cons arg args =>
                rcases List.mem_append.mp hp with hp | hp
                · exact argPieces_sound hp
                · exact ih hp

/-- The pieces and the tail make up the statement. -/
theorem statement_eq : statement quote left query args =
    (pieces quote left query args).flatMap Piece.whole ++ patternTail left query args := by
  have harg (call : ℕ) (arg : Bind) :
      (argPieces quote call arg).flatMap Piece.whole = argText quote call arg := by
    cases arg <;>
      simp [argPieces, argText, nullPiece, numberPiece, quotedPiece, Piece.whole, literal, nullText,
        List.take_of_length_le]
  induction left generalizing query args with
  | zero =>
      unfold statement pieces patternTail
      cases strchr query with
      | none => rfl
      | some insert => simp [patternPiece, Piece.whole]
  | succ left ih =>
      unfold statement pieces patternTail
      cases strchr query with
      | none => rfl
      | some insert =>
          cases args with
          | nil => simp [patternPiece, Piece.whole]
          | cons arg args => simp [patternPiece, Piece.whole, harg, ih]

/-! ## When the check is enough -/

/-- What the pieces take off `buflen`. -/
def spentBy (ps : List Piece) : ℕ :=
  (ps.map Piece.spent).sum

/-- The check of some piece fails while the pieces before it fit into the buffer. -/
def Refused (size : ℕ) (ps : List Piece) : Prop :=
  ∃ before p after, ps = before ++ p :: after ∧ (size : ℤ) - 1 - spentBy before < cInt p.len ∧
    (before.flatMap Piece.appended).length < size

variable {before after ps : List Piece} {size : ℕ}

/-- A piece whose check fails ends the loop, there or at an earlier piece. -/
theorem pour_refused (tail sqlbuf : List UInt8) (after : List Piece)
    (hfull : buflen - spentBy before < cInt p.len) : ∃ text,
      pour tail (before ++ p :: after) buflen sqlbuf = .overflow text ∧
        text.length ≤ sqlbuf.length + (before.flatMap Piece.appended).length := by
  induction before generalizing buflen sqlbuf with
  | nil =>
      have h : buflen < cInt p.len := by simpa [spentBy] using hfull
      exact ⟨sqlbuf, by rw [List.nil_append, pour, if_pos h], Nat.le_add_right _ _⟩
  | cons q before ih =>
      rw [List.cons_append, pour]
      by_cases h : buflen < cInt q.len
      · exact ⟨sqlbuf, by rw [if_pos h], Nat.le_add_right _ _⟩
      · rw [if_neg h]
        have hrest : buflen - q.spent - spentBy before < cInt p.len := by
          simpa only [spentBy, List.map_cons, List.sum_cons, Nat.cast_add, ← sub_sub] using hfull
        obtain ⟨text, htext, hlen⟩ := ih (sqlbuf ++ q.appended) hrest
        refine ⟨text, htext, hlen.trans ?_⟩
        simp only [List.flatMap_cons, List.length_append]
        omega

/-- The loop sends a text or ends at a piece whose check fails. -/
theorem pour_cases (tail : List UInt8) (ps : List Piece) (buflen : ℤ) (sqlbuf : List UInt8) :
    (∃ text, pour tail ps buflen sqlbuf = .send text) ∨
      ∃ before p after, ps = before ++ p :: after ∧ buflen - spentBy before < cInt p.len ∧
        pour tail ps buflen sqlbuf = .overflow (sqlbuf ++ before.flatMap Piece.appended) := by
  induction ps generalizing buflen sqlbuf with
  | nil => exact Or.inl ⟨_, rfl⟩
  | cons q ps ih =>
      rw [pour]
      by_cases h : buflen < cInt q.len
      · rw [if_pos h]
        exact Or.inr ⟨[], q, ps, rfl, by simpa [spentBy] using h, by simp⟩
      · rw [if_neg h]
        rcases ih (buflen - q.spent) (sqlbuf ++ q.appended) with hsend | hover
        · exact Or.inl hsend
        · obtain ⟨before, p, after, rfl, hfull, hrun⟩ := hover
          refine Or.inr ⟨q :: before, p, after, rfl, ?_, ?_⟩
          · simpa only [spentBy, List.map_cons, List.sum_cons, Nat.cast_add, ← sub_sub] using hfull
          · rw [hrun, List.flatMap_cons, List.append_assoc]

/-- A statement that fits is sent as it is. -/
theorem pour_fits (hsound : ∀ p ∈ ps, p.Sound) (hlt : buflen < 2 ^ 31)
    (hfits : ((ps.flatMap Piece.whole ++ tail).length : ℤ) ≤ buflen) :
    pour tail ps buflen sqlbuf = .send (sqlbuf ++ (ps.flatMap Piece.whole ++ tail)) := by
  induction ps generalizing buflen sqlbuf with
  | nil =>
      obtain ⟨n, rfl⟩ := Int.eq_ofNat_of_zero_le ((Int.natCast_nonneg _).trans hfits)
      have hsize : sizeT n = n := sizeT_eq (by omega)
      have htail : tail.length ≤ n := by simpa using hfits
      rw [pour, strncat, hsize, List.take_of_length_le htail]
      rfl
  | cons p ps ih =>
      have hp := hsound p List.mem_cons_self
      have hwhole := hp.length_whole
      have hspent := hp.spent_le
      rw [List.flatMap_cons, List.append_assoc, List.length_append, hwhole, Nat.cast_add] at hfits
      have hlen : cInt p.len = p.len := cInt_eq (by omega)
      have hroom : ¬ buflen < cInt p.len := by omega
      have happended : p.appended = p.whole := hp.appended_eq (by omega)
      rw [pour, if_neg hroom, happended, ih (fun q hq ↦ hsound q (List.mem_cons_of_mem _ hq))
        (by omega) (by omega)]
      simp only [List.flatMap_cons, List.append_assoc]

/-- Where a missing array meets no `?`, a call pours its pieces. -/
theorem dbQuery_eq_pour (quote : ℕ → List UInt8 → List UInt8) (size : ℕ) (query : List UInt8)
    (args : Option (List Bind)) (hguard : args = none → strchr query = none) :
    dbQuery quote size query args = pour (patternTail (args.getD []).length query (args.getD []))
      (pieces quote (args.getD []).length query (args.getD [])) (size - 1) [] := by
  cases args with
  | none => simp [dbQuery, pieces, patternTail, pour, hguard rfl]
  | some args => exact assemble_eq_pour

/-- The text stays within the buffer and a statement that does not fit is not sent exactly when the
statement fits, or when the check of one of its pieces fails and the pieces before it fit.  Without
an array of arguments there must be no `?`. -/
theorem dbQuery_bounded_iff (quote : ℕ → List UInt8 → List UInt8) (hsize : size < 2 ^ 31)
    (query : List UInt8) (args : Option (List Bind)) :
    Bounded size (statement quote (args.getD []).length query (args.getD []))
        (dbQuery quote size query args) ↔
      (args = none → strchr query = none) ∧
        ((statement quote (args.getD []).length query (args.getD [])).length < size ∨
          Refused size (pieces quote (args.getD []).length query (args.getD []))) := by
  by_cases hendless : args = none ∧ strchr query ≠ none
  · -- the array is missing and there is a `?`
    obtain ⟨rfl, hmark⟩ := hendless
    obtain ⟨insert, hinsert⟩ := Option.ne_none_iff_exists'.mp hmark
    simp [dbQuery, hinsert, Bounded]
  · have hguard : args = none → strchr query = none := fun h ↦ by
      by_contra hmark
      exact hendless ⟨h, hmark⟩
    rw [dbQuery_eq_pour quote size query args hguard, statement_eq, and_iff_right hguard]
    generalize (args.getD []).length = left
    generalize args.getD [] = list
    constructor
    · intro hbounded
      rcases pour_cases (patternTail left query list) (pieces quote left query list) (size - 1) []
        with ⟨text, hsend⟩ | ⟨before, p, after, hps, hfull, hover⟩
      · rw [hsend] at hbounded
        exact Or.inl hbounded.2
      · rw [hover] at hbounded
        exact Or.inr ⟨before, p, after, hps, hfull, hbounded⟩
    · intro h
      rcases h with hfits | ⟨before, p, after, hps, hfull, hroom⟩
      · rw [pour_fits (fun p hp ↦ pieces_sound hp) (by omega) (by omega)]
        exact ⟨hfits, hfits⟩
      · obtain ⟨text, htext, hlen⟩ := pour_refused (patternTail left query list) []
          after hfull
        rw [hps, htext]
        simp only [Bounded]
        simp only [List.length_nil, zero_add] at hlen
        omega

/-- A statement that fits into sixteen bytes. -/
theorem dbQuery_bounded_fits : Bounded 16 (statement (fun _ ↦ escaped) 1 [97, 61, 63] [.long 5])
    (dbQuery (fun _ ↦ escaped) 16 [97, 61, 63] (some [.long 5])) :=
  (dbQuery_bounded_iff (fun _ ↦ escaped) (by decide) [97, 61, 63] (some [.long 5])).mpr
    ⟨fun h ↦ absurd h (by simp), Or.inl (by decide +kernel)⟩

theorem not_bounded_of_long {string : List UInt8} (hlen : (escaped string).length = 30000) :
    ¬ Bounded 40960
      (statement (fun _ ↦ escaped) 2 [63, 44, 63] [.string (some string), .string (some string)])
      (dbQuery (fun _ ↦ escaped) 40960 [63, 44, 63]
        (some [.string (some string), .string (some string)])) := by
  have hpieces : pieces (fun _ ↦ escaped) 2 [63, 44, 63]
      [.string (some string), .string (some string)] =
      [⟨0, [63, 44, 63], [], 0⟩, quotedPiece (escaped string), ⟨1, [44, 63], [], 0⟩,
        quotedPiece (escaped string)] := rfl
  intro hbounded
  rw [dbQuery, List.length_cons, List.length_singleton, assemble_eq_pour, statement_eq,
    hpieces] at hbounded
  rcases pour_cases _ _ _ [] with ⟨text, hsend⟩ | ⟨before, p, after, hps, hfull, -⟩
  · rw [hsend] at hbounded
    have hfits := hbounded.2
    simp [quotedPiece, Piece.whole, hlen] at hfits
    omega
  · have hmem : ∀ q ∈ before ++ p :: after, q.spent = 0 ∧ q.len ≤ 30002 := by
      rw [← hps]
      simp [quotedPiece, hlen]
    have hspent : spentBy before = 0 := by
      apply List.sum_eq_zero
      simp only [List.mem_map, forall_exists_index, and_imp]
      rintro n q hq rfl
      exact (hmem q (List.mem_append_left _ hq)).1
    have hp := (hmem p (by simp)).2
    rw [hspent, cInt_eq (by omega)] at hfull
    push_cast at hfull
    omega

/-- Two strings of 30000 bytes pass the checks of a buffer of 40960 bytes. -/
theorem dbQuery_two_strings :
    ¬ Bounded 40960
      (statement (fun _ ↦ escaped) 2 [63, 44, 63]
        [.string (some (List.replicate 30000 97)), .string (some (List.replicate 30000 97))])
      (dbQuery (fun _ ↦ escaped) 40960 [63, 44, 63]
        (some [.string (some (List.replicate 30000 97)),
          .string (some (List.replicate 30000 97))])) := by
  apply not_bounded_of_long
  rw [escaped_eq_self, List.length_replicate]
  rw [List.countP_replicate]
  rfl

end Assembly

end HavokMud.Mysql
