import HavokMud.Mysql.Grammar

/-!
# Strings that reach the server

A literal that is read as its string, up to the case of letters, keeps its backslashes: a backslash
that takes a character away leaves all that is read behind it one place too early.
-/

namespace HavokMud.Mysql.Sql

open HavokMud.BTree

variable {text string value rest rest' : Text} {c d e : UInt8}

/-! ## One literal -/

/-- What a backslash and a character stand for is the backslash alone, or with the character. -/
theorem escapeValue_backslash (h : 92 :: string = escapeValue d ++ value) :
    d = 92 ∧ string = value ∨ (d = 37 ∨ d = 95) ∧ string = d :: value := by
  unfold escapeValue at h
  split_ifs at h with hkeep
  · obtain ⟨-, rfl⟩ := List.cons.inj h
    exact .inr ⟨hkeep, rfl⟩
  · obtain ⟨hchar, rfl⟩ := List.cons.inj h
    refine .inl ⟨?_, rfl⟩
    unfold escapeChar at hchar
    split_ifs at hchar <;> first | exact hchar.symm | simp at hchar

theorem lexBody_plain_cons (hback : c ≠ 92) (hquote : c ≠ 39)
    (h : lexBody (c :: text) = some (e :: value, rest)) :
    e = c ∧ lexBody text = some (value, rest) := by
  rw [lexBody_plain hback hquote] at h
  obtain ⟨v, hv, heq⟩ := lexBody_map h
  obtain ⟨rfl, rfl⟩ := List.cons.inj heq
  exact ⟨rfl, hv⟩

/-- A quote whose literal goes on is doubled. -/
theorem lexBody_quote_cons (h : lexBody (39 :: text) = some (e :: value, rest)) :
    e = 39 ∧ ∃ behind, text = 39 :: behind ∧ lexBody behind = some (value, rest) := by
  by_cases hhead : text.head? = some 39
  · obtain ⟨behind, rfl⟩ := List.head?_eq_some_iff.mp hhead
    rw [lexBody_doubled] at h
    obtain ⟨v, hv, heq⟩ := lexBody_map h
    obtain ⟨rfl, rfl⟩ := List.cons.inj heq
    exact ⟨rfl, behind, rfl, hv⟩
  · rw [lexBody_close hhead] at h
    cases h

/-- Only a literal that ends at once is read as nothing. -/
theorem head_of_lexBody_nil (h : lexBody text = some ([], rest)) : text.head? = some 39 := by
  cases text with
  | nil => cases h
  | cons c text =>
      by_cases hquote : c = 39
      · rw [hquote]
        rfl
      by_cases hback : c = 92
      · subst hback
        cases text with
        | nil => cases h
        | cons d text =>
            rw [lexBody_escape] at h
            obtain ⟨v, -, heq⟩ := lexBody_map h
            have hlen := congrArg List.length heq
            unfold escapeValue at hlen
            split_ifs at hlen <;> simp at hlen
      · rw [lexBody_plain hback hquote] at h
        obtain ⟨v, -, heq⟩ := lexBody_map h
        cases heq

/-- A spelling begins with the character itself where that is no letter. -/
theorem spelled_cons (hc : Caseless c) (h : fold string = fold (c :: text)) :
    ∃ string', string = c :: string' ∧ fold string' = fold text := by
  cases string with
  | nil => simp [fold] at h
  | cons d string =>
      obtain ⟨hhead, htail⟩ := List.cons.inj h
      exact ⟨string, by rw [hc.eq_of_toLower hhead], htail⟩

theorem isQuote_cases (h : isQuote c = true) : c = 39 ∨ c = 34 := by
  simpa [isQuote] using h

theorem isQuote_ne (h : isQuote c = false) : c ≠ 39 := by
  rintro rfl
  cases h

/-- An escaped text begins with no quote. -/
theorem eq_nil_of_escaped (h : escaped text ++ 39 :: rest = 39 :: rest') : text = [] := by
  cases text with
  | nil => rfl
  | cons c text =>
      cases hquote : isQuote c with
      | true =>
          rw [escaped_quote hquote] at h
          exact absurd (List.cons.inj h).1 (by decide)
      | false =>
          rw [escaped_other hquote] at h
          exact absurd (List.cons.inj h).1 (isQuote_ne hquote)

/-- Behind a backslash that took a character away, `j` backslashes are left over. -/
theorem lexBody_late {j : ℕ} (hj : 0 < j) (hfold : fold string = fold text) :
    lexBody (escaped text ++ 39 :: rest) ≠ some (List.replicate j 92 ++ string, rest') := by
  induction hn : text.length using Nat.strong_induction_on generalizing text string j with
  | _ n ih =>
  subst hn
  have hleft (k : ℕ) (behind : Text) :
      List.replicate k 92 ++ 92 :: behind = 92 :: (List.replicate k 92 ++ behind) := by
    rw [← List.singleton_append, ← List.append_assoc, ← List.replicate_succ',
      List.replicate_succ, List.cons_append]
  obtain ⟨j, rfl⟩ := Nat.exists_eq_succ_of_ne_zero hj.ne'
  rw [List.replicate_succ, List.cons_append]
  intro h
  cases text with
  | nil => exact absurd (lexBody_quote_cons h).1 (by decide)
  | cons c text =>
      cases hquote : isQuote c with
      | true =>
          rw [escaped_quote hquote, List.cons_append, List.cons_append, lexBody_quote hquote] at h
          obtain ⟨v, -, heq⟩ := lexBody_map h
          obtain ⟨rfl, -⟩ := List.cons.inj heq
          cases hquote
      | false =>
          rw [escaped_other hquote, List.cons_append] at h
          by_cases hback : c = 92
          · subst hback
            obtain ⟨string₁, rfl, hfold₁⟩ := spelled_cons (by decide) hfold
            rw [hleft] at h
            cases text with
            | nil =>
                rw [escaped, List.nil_append, lexBody_escape] at h
                obtain ⟨v, -, heq⟩ := lexBody_map h
                exact absurd (List.cons.inj heq).1 (by decide)
            | cons d text =>
                cases hquote' : isQuote d with
                | true =>
                    rw [escaped_quote hquote', List.cons_append, List.cons_append,
                      lexBody_escape] at h
                    obtain ⟨v, hv, heq⟩ := lexBody_map h
                    obtain ⟨-, rfl⟩ := List.cons.inj heq
                    rcases isQuote_cases hquote' with rfl | rfl
                    · exact absurd (lexBody_quote_cons hv).1 (by decide)
                    · exact absurd (lexBody_plain_cons (by decide) (by decide) hv).1 (by decide)
                | false =>
                    rw [escaped_other hquote', List.cons_append, lexBody_escape] at h
                    obtain ⟨v, hv, heq⟩ := lexBody_map h
                    rcases escapeValue_backslash heq with ⟨rfl, rfl⟩ | ⟨hkeep, heq⟩
                    · -- both backslashes are one, and another one is left over
                      obtain ⟨string₂, rfl, hfold₂⟩ := spelled_cons (by decide) hfold₁
                      rw [hleft, ← List.cons_append, ← List.cons_append, ← List.replicate_succ,
                        ← List.replicate_succ] at hv
                      exact ih text.length (by simp only [List.length_cons]; omega)
                        (Nat.succ_pos _) hfold₂ rfl hv
                    · obtain ⟨rfl, -⟩ := List.cons.inj heq
                      simp at hkeep
          · exact absurd (lexBody_plain_cons hback (isQuote_ne hquote) h).1 (Ne.symm hback)

/-- A literal that is read as its string up to case is read as it is. -/
theorem lexBody_spelled (hrest : rest.head? ≠ some 39) (hfold : fold string = fold text)
    (h : lexBody (escaped text ++ 39 :: rest) = some (string, rest')) :
    KeepsBackslashes text ∧ string = text := by
  induction hn : text.length using Nat.strong_induction_on generalizing text string with
  | _ n ih =>
  subst hn
  cases text with
  | nil => exact ⟨trivial, List.map_eq_nil_iff.mp hfold⟩
  | cons c text =>
      obtain ⟨e, string, rfl⟩ : ∃ e string', string = e :: string' := by
        apply List.exists_cons_of_ne_nil
        rintro rfl
        simp [fold] at hfold
      obtain ⟨hhead, hfold₁⟩ := List.cons.inj hfold
      have ih₁ := fun h ↦ ih text.length (Nat.lt_succ_self _) hfold₁ h rfl
      cases hquote : isQuote c with
      | true =>
          rw [escaped_quote hquote, List.cons_append, List.cons_append, lexBody_quote hquote] at h
          obtain ⟨v, hv, heq⟩ := lexBody_map h
          obtain ⟨rfl, rfl⟩ := List.cons.inj heq
          obtain ⟨hkeeps, rfl⟩ := ih₁ hv
          refine ⟨⟨?_, hkeeps⟩, rfl⟩
          rintro rfl
          cases hquote
      | false =>
          rw [escaped_other hquote, List.cons_append] at h
          by_cases hback : c = 92
          · subst hback
            obtain rfl : e = 92 := Caseless.eq_of_toLower (by decide) hhead
            cases text with
            | nil =>
                rw [escaped, List.nil_append, lexBody_escape] at h
                obtain ⟨v, -, heq⟩ := lexBody_map h
                exact absurd (List.cons.inj heq).1 (by decide)
            | cons d text =>
                have hlt : text.length < (92 :: d :: text).length := by
                  simp only [List.length_cons]
                  omega
                cases hquote' : isQuote d with
                | true =>
                    rw [escaped_quote hquote', List.cons_append, List.cons_append,
                      lexBody_escape] at h
                    obtain ⟨v, hv, heq⟩ := lexBody_map h
                    obtain ⟨-, rfl⟩ := List.cons.inj heq
                    rcases isQuote_cases hquote' with rfl | rfl
                    · -- the quote ends the literal, unless the string ends there
                      obtain ⟨string₂, rfl, hfold₂⟩ := spelled_cons (by decide) hfold₁
                      obtain ⟨-, behind, hbehind, hv⟩ := lexBody_quote_cons hv
                      obtain rfl := eq_nil_of_escaped hbehind
                      obtain rfl : string₂ = [] := List.map_eq_nil_iff.mp hfold₂
                      obtain ⟨-, rfl⟩ := List.cons.inj hbehind
                      exact absurd (head_of_lexBody_nil hv) hrest
                    · obtain ⟨string₂, rfl, hfold₂⟩ := spelled_cons (by decide) hfold₁
                      have hv := (lexBody_plain_cons (by decide) (by decide) hv).2
                      obtain ⟨hkeeps, rfl⟩ := ih text.length hlt hfold₂ hv rfl
                      exact ⟨⟨fun _ ↦ by simp, fun heq ↦ absurd heq (by decide), hkeeps⟩, rfl⟩
                | false =>
                    rw [escaped_other hquote', List.cons_append, lexBody_escape] at h
                    obtain ⟨v, hv, heq⟩ := lexBody_map h
                    rcases escapeValue_backslash heq with ⟨rfl, rfl⟩ | ⟨hkeep, rfl⟩
                    · obtain ⟨string₂, rfl, hfold₂⟩ := spelled_cons (by decide) hfold₁
                      exact absurd hv (lexBody_late Nat.one_pos hfold₂)
                    · obtain ⟨hkeeps, rfl⟩ := ih text.length hlt (List.cons.inj hfold₁).2 hv rfl
                      refine ⟨⟨fun _ ↦ ?_, ?_, hkeeps⟩, rfl⟩
                      · rcases hkeep with rfl | rfl <;> simp
                      · rintro rfl
                        simp at hkeep
          · obtain ⟨rfl, hv⟩ := lexBody_plain_cons hback (isQuote_ne hquote) h
            obtain ⟨hkeeps, rfl⟩ := ih₁ hv
            exact ⟨⟨fun heq ↦ absurd heq hback, hkeeps⟩, rfl⟩

/-! ## The tokens of literals -/

theorem scan_of_lexBody_none {read : Text} (h : lexBody text = none) :
    scan (.inside read) text = none := by
  fun_induction lexBody text generalizing read with
  | case1 => rfl
  | case2 => rfl
  | case3 d text ih => rw [scan_escape, ih (Option.map_eq_none_iff.mp h)]
  | case4 => cases h
  | case5 text _ ih =>
      rw [scan_quote, scan_cons (.inside (read ++ [39])) rfl,
        ih (Option.map_eq_none_iff.mp h)]
  | case6 => cases h
  | case7 c text hback hquote ih =>
      rw [scan_inside hback hquote, ih (Option.map_eq_none_iff.mp h)]

variable {toks : List Token} {values : List SqlValue}

/-- A literal that has ended is the next token. -/
theorem head_of_scan_closed (hhead : rest.head? ≠ some 39)
    (h : scan (.closed value) rest = some toks) :
    ∃ behind, toks = .value (.text value) :: behind := by
  cases rest with
  | nil =>
      cases h
      exact ⟨[], rfl⟩
  | cons c rest =>
      have hc : c ≠ 39 := by simpa using hhead
      rw [scan] at h
      obtain ⟨r, hstep, htail⟩ := Option.bind_eq_some_iff.mp h
      obtain ⟨behind, -, rfl⟩ := Option.map_eq_some_iff.mp htail
      cases hmarks : Mode.delimiter c with
      | some marks =>
          rw [step_of_delimiter rfl hmarks] at hstep
          cases hstep
          exact ⟨marks ++ behind, rfl⟩
      | none =>
          rw [step_of_not_delimiter hmarks, Mode.more, if_neg hc] at hstep
          cases hstep

/-- A literal whose token is its string up to case is read as it is. -/
theorem scan_literal_spelled (hrest : rest.head? ≠ some 39) (hfold : fold string = fold text)
    (h : scan .blank (literal (escaped text) ++ rest) = some (.value (.text string) :: toks)) :
    KeepsBackslashes text ∧ string = text := by
  have happend : literal (escaped text) ++ rest = 39 :: (escaped text ++ 39 :: rest) := by
    simp [literal]
  rw [happend, scan_cons (.inside []) rfl] at h
  cases hlex : lexBody (escaped text ++ 39 :: rest) with
  | none =>
      rw [scan_of_lexBody_none hlex] at h
      cases h
  | some r =>
      obtain ⟨value, behind⟩ := r
      rw [scan_lexBody hlex, List.nil_append] at h
      obtain ⟨toks', heq⟩ := head_of_scan_closed (lexBody_rest hlex).2 h
      obtain ⟨hvalue, -⟩ := List.cons.inj heq
      injection hvalue with htext
      injection htext with htext
      subst htext
      exact lexBody_spelled hrest hfold hlex

/-! ## The values of an `INSERT` -/

/-- Texts with commas between them, up to the parenthesis behind them. -/
def listed : List Text → Text
  | [] => []
  | [text] => text ++ [41]
  | text :: texts => text ++ 44 :: 32 :: listed texts

/-- Places with commas between them, up to the parenthesis behind them. -/
def places : ℕ → Text
  | 0 => []
  | 1 => [63, 41]
  | n + 1 => 63 :: 44 :: 32 :: places n

/-- The string of an argument is a value up to case. -/
def Spelled : Bind → SqlValue → Prop
  | .string (some string), value => ∃ text, value = .text text ∧ fold text = fold string
  | _, _ => True

/-- The string of an argument is a value, and it keeps its backslashes. -/
def Kept : Bind → SqlValue → Prop
  | .string (some string), value => value = .text string ∧ KeepsBackslashes string
  | _, _ => True

theorem substituted_places {piece : Text} (hpiece : 63 ∉ piece) (texts : List Text) :
    substituted (piece ++ places texts.length) texts = piece ++ listed texts := by
  induction texts generalizing piece with
  | nil =>
      rw [List.length_nil, places, listed, List.append_nil]
      exact substituted_of_not_mem hpiece []
  | cons text texts ih =>
      cases texts with
      | nil =>
          have hlast : substituted [41] [] = [41] := substituted_of_not_mem (by decide) []
          exact (substituted_cons hpiece [41] text []).trans
            (congrArg (fun behind ↦ piece ++ (text ++ behind)) hlast)
      | cons text' texts =>
          have hcomma : substituted ([44, 32] ++ places (text' :: texts).length) (text' :: texts) =
              [44, 32] ++ listed (text' :: texts) := ih (by decide)
          exact (substituted_cons hpiece _ text _).trans
            (congrArg (fun behind ↦ piece ++ (text ++ behind)) hcomma)

theorem count_places (n : ℕ) : (places n).count 63 = n := by
  induction n with
  | zero => rfl
  | succ n ih =>
      cases n with
      | zero => rfl
      | succ n =>
          rw [places, List.count_cons_self, List.count_cons_of_ne (by decide),
            List.count_cons_of_ne (by decide), ih]
          exact Nat.succ_ne_zero n

theorem parseValues_cons {read : List Token} {left : List Token}
    (h : parseValues read = some (values, left)) :
    ∃ value behind, read = .value value :: behind ∧ values.head? = some value := by
  unfold parseValues at h
  split at h
  · obtain ⟨r, -, heq⟩ := Option.map_eq_some_iff.mp h
    cases heq
    exact ⟨_, _, rfl, rfl⟩
  · cases h
    exact ⟨_, _, rfl, rfl⟩
  · cases h

/-- The first value of an `INSERT`. -/
theorem kept_of_scan {quote : QuoteAnswers} {call : ℕ} {bind : Bind} {value : SqlValue}
    (hquote : ∀ string, bind = .string (some string) → quote.text call string = escaped string)
    (hrest : rest.head? ≠ some 39) (hspelled : Spelled bind value)
    (hscan : scan .blank (rendering (quote.text call) bind ++ rest) =
      some (.value value :: toks)) : Kept bind value := by
  cases bind with
  | string buffer =>
      cases buffer with
      | none => exact trivial
      | some string =>
          obtain ⟨text, rfl, hfold⟩ := hspelled
          have hread : scan .blank (literal (escaped string) ++ rest) =
              some (.value (.text text) :: toks) := by
            rw [← hquote string rfl]
            exact hscan
          obtain ⟨hkeeps, rfl⟩ := scan_literal_spelled hrest hfold hread
          exact ⟨rfl, hkeeps⟩
  | _ => exact trivial

theorem Kept.readable {quote : List UInt8 → List UInt8} {bind : Bind} {value : SqlValue}
    (h : Kept bind value) (htype : .other ≠ bind)
    (hquote : ∀ string, bind = .string (some string) → quote string = escaped string) :
    Readable quote bind := by
  cases bind with
  | string buffer =>
      rintro string ⟨⟩
      exact ⟨hquote string rfl, h.2⟩
  | other => exact htype rfl
  | _ => exact trivial

/-- Behind a value and a comma. -/
theorem scan_comma {value : SqlValue} (hreads : Reads text value) (behind : Text) :
    scan .blank (text ++ 44 :: 32 :: behind) =
      (scan .blank behind).map fun toks ↦ .value value :: .mark 44 :: toks := by
  obtain ⟨m, hquoted, hfinish, hscan⟩ := hreads
  have hstep : m.step 44 = some ([.value value, .mark 44], .blank) := by
    rw [step_of_delimiter hquoted rfl, hfinish]
    rfl
  have hblank : scan .blank (32 :: behind) = scan .blank behind := scan_cons _ rfl
  rw [hscan _ (by simp), scan, hstep, Option.bind_some, hblank]
  rfl

/-- Where the values of an `INSERT` are the strings of its arguments up to case, the strings keep
their backslashes and are the values. -/
theorem kept_of_listed {quote : QuoteAnswers} {binds : List Bind} {left : List Token}
    (hquote : ∀ call string, .string (some string) ∈ binds →
      quote.text call string = escaped string) (htypes : .other ∉ binds)
    (hscan : scan .blank (listed (renderings quote binds)) = some toks)
    (hparse : parseValues toks = some (values, left))
    (hspelled : List.Forall₂ Spelled binds values) : List.Forall₂ Kept binds values := by
  induction hspelled generalizing toks with
  | nil => exact .nil
  | @cons bind value binds values hspelled htail ih =>
      obtain ⟨htype, htypes⟩ : .other ≠ bind ∧ .other ∉ binds := by simpa using htypes
      have hquote₁ : ∀ call string, bind = .string (some string) →
          quote.text call string = escaped string := by
        rintro call string rfl
        exact hquote call string List.mem_cons_self
      have hquote₂ : ∀ call string, .string (some string) ∈ binds →
          quote.text call string = escaped string :=
        fun call string hmem ↦ hquote call string (List.mem_cons_of_mem _ hmem)
      obtain ⟨first, behind, rfl, hfirst⟩ := parseValues_cons hparse
      obtain rfl : value = first := Option.some.inj hfirst
      cases htail with
      | nil => exact .cons (kept_of_scan (hquote₁ 0) (by decide) hspelled hscan) .nil
      | @cons bind' value' binds values hspelled' htail =>
          have hkept := kept_of_scan (hquote₁ _) (by simp) hspelled hscan
          have hreads := reads_rendering (hkept.readable htype (hquote₁ (bind' :: binds).length))
          have hcomma := scan_comma hreads (listed (renderings quote (bind' :: binds)))
          obtain ⟨toks, htoks, heq⟩ := Option.map_eq_some_iff.mp (hcomma.symm.trans hscan)
          obtain ⟨-, rfl⟩ := List.cons.inj heq
          obtain ⟨⟨values', left'⟩, hvalues, heq⟩ := Option.map_eq_some_iff.mp hparse
          cases heq
          exact .cons hkept (ih hquote₂ htypes htoks hvalues)

/-! ## Beginnings of statements -/

/-- The tokens of a beginning, and the mode behind it. -/
def run : Mode → Text → Option (List Token × Mode)
  | m, [] => some ([], m)
  | m, c :: text => (m.step c).bind fun r ↦ (run r.2 text).map fun r' ↦ (r.1 ++ r'.1, r'.2)

theorem scan_append {m m' : Mode} {read : List Token} (h : run m text = some (read, m'))
    (behind : Text) : scan m (text ++ behind) = (scan m' behind).map (read ++ ·) := by
  induction text generalizing m read with
  | nil =>
      obtain ⟨rfl, rfl⟩ := Prod.mk.inj (Option.some.inj h)
      simp
  | cons c text ih =>
      obtain ⟨r, hstep, htail⟩ := Option.bind_eq_some_iff.mp h
      obtain ⟨r', hrun, heq⟩ := Option.map_eq_some_iff.mp htail
      cases heq
      rw [List.cons_append, scan, hstep, Option.bind_some, ih hrun, Option.map_map]
      congr 1
      funext toks
      simp

theorem tokens_append {read : List Token} (h : run .blank text = some (read, .blank))
    (behind : Text) : tokens (text ++ behind) = (tokens behind).map (read ++ ·) :=
  scan_append h behind

/-- A text that begins with `SELECT` is no other statement. -/
theorem readStatement_select {statement : Statement}
    (h : readStatement (bytes "SELECT " ++ text) = some statement) :
    ∃ columns table conditions order limit,
      statement = .select columns table conditions order limit := by
  have hrun : run .blank (bytes "SELECT ") = some ([.word .select], .blank) := by decide +kernel
  rw [readStatement, tokens_append hrun] at h
  obtain ⟨read, hread, hparse⟩ := Option.bind_eq_some_iff.mp h
  obtain ⟨toks, -, rfl⟩ := Option.map_eq_some_iff.mp hread
  change parseSelect toks = some statement at hparse
  obtain ⟨⟨columns, behind⟩, -, hselect⟩ := Option.bind_eq_some_iff.mp hparse
  split at hselect
  · simp only [Option.bind_eq_bind, Option.bind_eq_some_iff] at hselect
    obtain ⟨table, -, ⟨conditions, left⟩, -, ⟨order, left'⟩, -, limit, -, heq⟩ := hselect
    cases heq
    exact ⟨_, _, _, _, _, rfl⟩
  · cases hselect

/-- A text begins an `INSERT`, up to the parenthesis before its values. -/
def Inserts (piece : Text) (table : Table) (columns : List Column) : Prop :=
  63 ∉ piece ∧ ∃ read, run .blank piece = some (read, .blank) ∧
    ∀ toks, parse (read ++ toks) = (parseValues toks).bind fun
      | (values, []) => some (.insert table columns values)
      | _ => none

/-- The columns of an `INSERT` take the values behind them. -/
theorem Inserts.readStatement {piece : Text} {table : Table} {columns : List Column}
    {statement : Statement} (hinserts : Inserts piece table columns)
    (h : readStatement (piece ++ text) = some statement) :
    ∃ toks values, scan .blank text = some toks ∧ parseValues toks = some (values, []) ∧
      statement = .insert table columns values := by
  obtain ⟨-, read, hrun, hparse⟩ := hinserts
  rw [Sql.readStatement, tokens_append hrun] at h
  obtain ⟨all, hread, hstatement⟩ := Option.bind_eq_some_iff.mp h
  obtain ⟨toks, htoks, rfl⟩ := Option.map_eq_some_iff.mp hread
  rw [hparse] at hstatement
  obtain ⟨⟨values, left⟩, hvalues, hsome⟩ := Option.bind_eq_some_iff.mp hstatement
  split at hsome
  · rename_i heq
    cases heq
    cases hsome
    exact ⟨toks, values, htoks, hvalues, rfl⟩
  · cases hsome

theorem perform_insert_cases {Row : Type} {access : Access Row} {collate : Text → Text}
    {db : Database} {table : Table} {columns : List Column} {result : Database × ℕ}
    (h : access.perform collate db (.insert table columns values) = some result) :
    columns.length = values.length ∧ ∃ row,
      access.assign access.initial (columns.zip values) = some row ∧
        access.add db row = some result.1 := by
  rw [Access.perform] at h
  split_ifs at h with hknown
  obtain ⟨db', hadd, rfl⟩ := Option.map_eq_some_iff.mp h
  obtain ⟨row, hassign, hadded⟩ := Option.bind_eq_some_iff.mp hadd
  exact ⟨hknown.2, row, hassign, hadded⟩

/-- A `SELECT` finds nothing in empty tables. -/
theorem perform_select_empty {collate : Text → Text} {db db' : Database} {n : ℕ}
    {columns : List Column} {table : Table} {conditions : List Equation} {order : Option Column}
    {limit : Option ℕ} (hdb : db.settings = [] ∧ db.accounts = [] ∧ db.pcs = [] ∧ db.pcattribs = [])
    (h : perform collate db (.select columns table conditions order limit) = some (db', n)) :
    db' = db ∧ n = 0 := by
  have hempty {Row : Type} (access : Access Row) (hrows : access.rows db = [])
      (h : access.perform collate db (.select columns table conditions order limit) =
        some (db', n)) : db' = db ∧ n = 0 := by
    rw [Access.perform, hrows] at h
    split_ifs at h
    cases limit <;> cases h <;> simp
  obtain ⟨hsettings, haccounts, hpcs, hpcattribs⟩ := hdb
  cases table with
  | settings =>
      rw [perform_settings rfl] at h
      exact hempty (settings collate) hsettings h
  | accounts =>
      rw [perform_accounts rfl] at h
      exact hempty accounts haccounts h
  | pcs =>
      rw [perform_pcs rfl] at h
      exact hempty pcs hpcs h
  | pcattribs =>
      rw [perform_pcattribs rfl] at h
      exact hempty pcattribs hpcattribs h

end HavokMud.Mysql.Sql
