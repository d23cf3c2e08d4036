import HavokMud.Memory.StringRuns

/-!
# Quoting string arguments

`db_quote` puts a backslash before every quote character of a string and leaves its backslashes as
they are.  The result stands between single quotes in the statement, where the server reads it with
backslash escapes and doubled quotes.
-/

namespace HavokMud.Mysql

open HavokMud.Memory HavokMud.BTree

/-! ## The source -/

/-- The characters `'` and `"`. -/
def isQuote (c : UInt8) : Bool :=
  c = 39 ∨ c = 34

/-- What the loop of `db_quote` writes for a string. -/
def escaped : List UInt8 → List UInt8
  | [] => []
  | c :: string => if isQuote c then 92 :: c :: escaped string else c :: escaped string

/-- `db_quote`: a string without quote characters is linked, not copied. -/
def dbQuote (pl : Platform) (s : Memory.State) (string : List UInt8) (blk : ℤ) :
    Option (Memory.State × ℤ) :=
  let count := string.countP isQuote
  if count = 0 then memstrlink pl s string blk
  else do
    let (s, retString) ← memalloc pl s (string.length + count + 1) blk
    some ({ s with mem := writeBytes s.mem retString (escaped string ++ [0]) }, retString)

/-- The literal `db_query` appends for a string argument. -/
def literal (text : List UInt8) : List UInt8 :=
  39 :: text ++ [39]

/-! ## The server -/

/-- The character a backslash and `c` stand for. -/
def escapeChar (c : UInt8) : UInt8 :=
  if c = 48 then 0          -- \0
  else if c = 98 then 8     -- \b
  else if c = 110 then 10   -- \n
  else if c = 114 then 13   -- \r
  else if c = 116 then 9    -- \t
  else if c = 90 then 26    -- \Z
  else c

/-- What a backslash and `c` stand for.  Before `%` and `_` the backslash is kept. -/
def escapeValue (c : UInt8) : List UInt8 :=
  if c = 37 ∨ c = 95 then [92, c] else [escapeChar c]

/-- The body of a literal from behind its opening quote: its value and the text behind its closing
quote.  A doubled quote stands for a quote. -/
def lexBody : List UInt8 → Option (List UInt8 × List UInt8)
  | [] => none
  | c :: text =>
      if c = 92 then
        match text with
        | [] => none
        | d :: text => (lexBody text).map fun r ↦ (escapeValue d ++ r.1, r.2)
      else if c = 39 then
        match text with
        | [] => some ([], [])
        | d :: text' =>
            if d = 39 then (lexBody text').map fun r ↦ (39 :: r.1, r.2) else some ([], text)
      else (lexBody text).map fun r ↦ (c :: r.1, r.2)

/-- The literal a text begins with: its value and the text behind it. -/
def lexLiteral : List UInt8 → Option (List UInt8 × List UInt8)
  | 39 :: text => lexBody text
  | _ => none

/-- Every backslash is followed by `%`, `_` or `"`. -/
def KeepsBackslashes : List UInt8 → Prop
  | [] => True
  | c :: string => (c = 92 → string.head? = some 37 ∨ string.head? = some 95 ∨
      string.head? = some 34) ∧ KeepsBackslashes string

variable {c d : UInt8} {text rest value string : List UInt8}

theorem lexBody_escape : lexBody (92 :: d :: text) =
    (lexBody text).map fun r ↦ (escapeValue d ++ r.1, r.2) := by
  rw [lexBody]
  rfl

theorem lexBody_doubled : lexBody (39 :: 39 :: text) =
    (lexBody text).map fun r ↦ (39 :: r.1, r.2) := by
  rw [lexBody]
  rfl

theorem lexBody_close (hrest : rest.head? ≠ some 39) : lexBody (39 :: rest) = some ([], rest) := by
  cases rest with
  | nil => rfl
  | cons d text =>
      rw [lexBody, if_neg (by decide), if_pos rfl]
      exact if_neg (by simpa using hrest)

theorem lexBody_plain (hback : c ≠ 92) (hquote : c ≠ 39) :
    lexBody (c :: text) = (lexBody text).map fun r ↦ (c :: r.1, r.2) := by
  rw [lexBody.eq_def]
  simp only [if_neg hback, if_neg hquote]

theorem lexBody_map {f : List UInt8 → List UInt8}
    (h : (lexBody text).map (fun r ↦ (f r.1, r.2)) = some (value, rest)) :
    ∃ value', lexBody text = some (value', rest) ∧ value = f value' := by
  obtain ⟨⟨v, r⟩, hr, heq⟩ := Option.map_eq_some_iff.mp h
  obtain ⟨rfl, rfl⟩ := Prod.mk.inj heq
  exact ⟨v, hr, rfl⟩

/-- What is left behind a literal is shorter and does not begin with a quote. -/
theorem lexBody_rest (h : lexBody text = some (value, rest)) :
    rest.length < text.length ∧ rest.head? ≠ some 39 := by
  fun_induction lexBody text generalizing value rest with
  | case1 => simp at h
  | case2 => simp at h
  | case3 d text ih =>
      obtain ⟨v, hv, -⟩ := lexBody_map h
      obtain ⟨hlen, hhead⟩ := ih hv
      exact ⟨by simp only [List.length_cons]; omega, hhead⟩
  | case4 =>
      obtain ⟨-, rfl⟩ := Prod.mk.inj (Option.some.inj h)
      exact ⟨Nat.one_pos, by simp⟩
  | case5 text _ ih =>
      obtain ⟨v, hv, -⟩ := lexBody_map h
      obtain ⟨hlen, hhead⟩ := ih hv
      exact ⟨by simp only [List.length_cons]; omega, hhead⟩
  | case6 d text hne =>
      obtain ⟨-, rfl⟩ := Prod.mk.inj (Option.some.inj h)
      exact ⟨Nat.lt_succ_self _, by simpa using hne⟩
  | case7 c text _ _ ih =>
      obtain ⟨v, hv, -⟩ := lexBody_map h
      obtain ⟨hlen, hhead⟩ := ih hv
      exact ⟨by simp only [List.length_cons]; omega, hhead⟩

theorem escapeValue_length (d : UInt8) : (escapeValue d).length ≤ 2 := by
  unfold escapeValue
  split_ifs <;> simp

/-- Only `%` and `_` keep the backslash before them. -/
theorem escapeValue_of_length (h : (escapeValue d).length = 2) :
    (d = 37 ∨ d = 95) ∧ escapeValue d = [92, d] := by
  unfold escapeValue at h ⊢
  split_ifs at h ⊢ with hkeep
  · exact ⟨hkeep, rfl⟩
  · simp at h

theorem escaped_quote (hc : isQuote c = true) : escaped (c :: string) = 92 :: c :: escaped string :=
  if_pos hc

theorem escaped_other (hc : isQuote c = false) : escaped (c :: string) = c :: escaped string := by
  rw [escaped, hc]
  rfl

/-- A quote character is read back from behind its backslash. -/
theorem lexBody_quote (hc : isQuote c = true) :
    lexBody (92 :: c :: text) = (lexBody text).map fun r ↦ (c :: r.1, r.2) := by
  have hvalue : escapeValue c = [c] := by
    have hor : c = 39 ∨ c = 34 := by simpa [isQuote] using hc
    rcases hor with rfl | rfl <;> rfl
  rw [lexBody_escape, hvalue]
  rfl

/-- A string that keeps its backslashes is read back. -/
theorem lexBody_escaped (hkeeps : KeepsBackslashes string) (hrest : rest.head? ≠ some 39) :
    lexBody (escaped string ++ 39 :: rest) = some (string, rest) := by
  induction hn : string.length using Nat.strong_induction_on generalizing string with
  | _ n ih =>
  subst hn
  match string, hkeeps with
  | [], _ => exact lexBody_close hrest
  | c :: string, ⟨hback, htail⟩ =>
      have ih₁ := ih string.length (Nat.lt_succ_self _) htail rfl
      by_cases hc : c = 92
      · subst hc
        match string, hback rfl, htail with
        | d :: string, hd, ⟨_, htail⟩ =>
            have ih₂ := ih string.length (by simp only [List.length_cons]; omega) htail rfl
            have hd' : d = 37 ∨ d = 95 ∨ d = 34 := by simpa using hd
            rw [escaped_other (by decide)]
            rcases hd' with rfl | rfl | rfl
            · rw [escaped_other (by decide), List.cons_append, List.cons_append,
                lexBody_escape, ih₂]
              rfl
            · rw [escaped_other (by decide), List.cons_append, List.cons_append,
                lexBody_escape, ih₂]
              rfl
            · rw [escaped_quote (by decide), List.cons_append, List.cons_append, List.cons_append,
                lexBody_escape, lexBody_plain (by decide) (by decide), ih₂]
              rfl
      · cases hquote : isQuote c with
        | true =>
            rw [escaped_quote hquote, List.cons_append, List.cons_append, lexBody_quote hquote, ih₁]
            rfl
        | false =>
            have hne : c ≠ 39 := by
              rintro rfl
              simp [isQuote] at hquote
            rw [escaped_other hquote, List.cons_append, lexBody_plain hc hne, ih₁]
            rfl

/-- A quote that no backslash precedes ends the literal before the string ends. -/
theorem lexBody_bare_quote :
    lexBody (39 :: (escaped string ++ 39 :: rest)) ≠ some (value, rest) := by
  intro h
  by_cases hhead : (escaped string ++ 39 :: rest).head? = some 39
  · match string with
    | [] =>
        rw [escaped, List.nil_append, lexBody_doubled] at h
        obtain ⟨⟨v, r⟩, hr, heq⟩ := Option.map_eq_some_iff.mp h
        obtain ⟨-, rfl⟩ := Prod.mk.inj heq
        exact lt_irrefl _ (lexBody_rest hr).1
    | c :: string =>
        cases hquote : isQuote c with
        | true => simp [escaped_quote hquote] at hhead
        | false =>
            obtain rfl : c = 39 := by simpa [escaped_other hquote] using hhead
            simp [isQuote] at hquote
  · rw [lexBody_close hhead] at h
    obtain ⟨-, heq⟩ := Prod.mk.inj (Option.some.inj h)
    have hlen := congrArg List.length heq
    simp only [List.length_append, List.length_cons] at hlen
    omega

/-- The value read for a string is no longer than the string, and as long only when the string keeps
its backslashes and is read as it is. -/
def ReadAs (string value : List UInt8) : Prop :=
  value.length ≤ string.length ∧
    (value.length = string.length → KeepsBackslashes string ∧ value = string)

namespace ReadAs

theorem nil : ReadAs [] [] :=
  ⟨le_rfl, fun _ ↦ ⟨trivial, rfl⟩⟩

/-- A character that is read as itself. -/
theorem cons (h : ReadAs string value) (hc : c ≠ 92) : ReadAs (c :: string) (c :: value) := by
  refine ⟨by simpa using h.1, fun hlen ↦ ?_⟩
  obtain ⟨hkeeps, rfl⟩ := h.2 (by simpa using hlen)
  exact ⟨⟨fun hback ↦ absurd hback hc, hkeeps⟩, rfl⟩

/-- A backslash that is read as an escape. -/
theorem escape (h : ReadAs string value) : ReadAs (92 :: d :: string) (escapeValue d ++ value) := by
  have hvalue := escapeValue_length d
  have hle := h.1
  simp only [ReadAs, List.length_append, List.length_cons]
  refine ⟨by omega, fun hlen ↦ ?_⟩
  obtain ⟨hd, hkept⟩ := escapeValue_of_length (d := d) (by omega)
  obtain ⟨hkeeps, rfl⟩ := h.2 (by omega)
  refine ⟨⟨fun _ ↦ ?_, fun hback ↦ ?_, hkeeps⟩, by rw [hkept]; rfl⟩
  · rcases hd with rfl | rfl <;> simp
  · rcases hd with rfl | rfl <;> simp at hback

/-- A backslash that is read as itself because of the one added behind it. -/
theorem backslash (h : ReadAs string value) : ReadAs (92 :: 34 :: string) (92 :: 34 :: value) := by
  refine ⟨by simpa using h.1, fun hlen ↦ ?_⟩
  obtain ⟨hkeeps, rfl⟩ := h.2 (by simpa using hlen)
  exact ⟨⟨fun _ ↦ by simp, fun hback ↦ by simp at hback, hkeeps⟩, rfl⟩

end ReadAs

/-- What is read when the literal ends where the string ends. -/
theorem lexBody_read (h : lexBody (escaped string ++ 39 :: rest) = some (value, rest)) :
    ReadAs string value := by
  induction hn : string.length using Nat.strong_induction_on generalizing string value with
  | _ n ih =>
  subst hn
  cases string with
  | nil =>
      rw [escaped, List.nil_append, lexBody_close (lexBody_rest h).2] at h
      obtain ⟨rfl, -⟩ := Prod.mk.inj (Option.some.inj h)
      exact .nil
  | cons c string =>
      cases hquote : isQuote c with
      | true =>
          have hc : c ≠ 92 := by
            rintro rfl
            simp [isQuote] at hquote
          rw [escaped_quote hquote, List.cons_append, List.cons_append, lexBody_quote hquote] at h
          obtain ⟨v, hv, rfl⟩ := lexBody_map h
          exact (ih string.length (Nat.lt_succ_self _) hv rfl).cons hc
      | false =>
          have hne : c ≠ 39 := by
            rintro rfl
            simp [isQuote] at hquote
          rw [escaped_other hquote, List.cons_append] at h
          by_cases hc : c = 92
          · subst hc
            cases string with
            | nil =>
                -- the backslash takes the closing quote away
                rw [escaped, List.nil_append, lexBody_escape] at h
                obtain ⟨v, hv, -⟩ := lexBody_map h
                exact absurd (lexBody_rest hv).1 (lt_irrefl _)
            | cons d string =>
                have hlt : string.length < (92 :: d :: string).length := by
                  simp only [List.length_cons]
                  omega
                cases hquote' : isQuote d with
                | false =>
                    rw [escaped_other hquote', List.cons_append, lexBody_escape] at h
                    obtain ⟨v, hv, rfl⟩ := lexBody_map h
                    exact (ih string.length hlt hv rfl).escape
                | true =>
                    rw [escaped_quote hquote', List.cons_append, List.cons_append,
                      lexBody_escape] at h
                    obtain ⟨v, hv, rfl⟩ := lexBody_map h
                    have hor : d = 39 ∨ d = 34 := by simpa [isQuote] using hquote'
                    rcases hor with rfl | rfl
                    · exact absurd hv lexBody_bare_quote
                    · rw [lexBody_plain (by decide) (by decide)] at hv
                      obtain ⟨w, hw, rfl⟩ := lexBody_map hv
                      exact (ih string.length hlt hw rfl).backslash
          · rw [lexBody_plain hc hne] at h
            obtain ⟨v, hv, rfl⟩ := lexBody_map h
            exact (ih string.length (Nat.lt_succ_self _) hv rfl).cons hc

/-- The literal made of an escaped text is read as `string`, with `rest` behind it. -/
theorem lexLiteral_iff : lexLiteral (literal (escaped text) ++ rest) = some (string, rest) ∧
    text.length = string.length ↔
    text = string ∧ KeepsBackslashes string ∧ rest.head? ≠ some 39 := by
  have heq : lexLiteral (literal (escaped text) ++ rest) =
      lexBody (escaped text ++ 39 :: rest) := by
    simp [literal, lexLiteral]
  rw [heq]
  constructor
  · rintro ⟨hread, hlen⟩
    obtain ⟨hkeeps, rfl⟩ := (lexBody_read hread).2 hlen.symm
    exact ⟨rfl, hkeeps, (lexBody_rest hread).2⟩
  · rintro ⟨rfl, hkeeps, hrest⟩
    exact ⟨lexBody_escaped hkeeps hrest, rfl⟩

/-! ## What `db_quote` returns -/

theorem escaped_eq_self (h : string.countP isQuote = 0) : escaped string = string := by
  induction string with
  | nil => rfl
  | cons c string ih =>
      have hall := List.countP_eq_zero.mp h
      have hc : isQuote c = false := by simpa using hall c List.mem_cons_self
      rw [escaped_other hc,
        ih (List.countP_eq_zero.mpr fun d hd ↦ hall d (List.mem_cons_of_mem _ hd))]

theorem length_escaped (string : List UInt8) :
    (escaped string).length = string.length + string.countP isQuote := by
  induction string with
  | nil => rfl
  | cons c string ih =>
      cases hc : isQuote c with
      | true =>
          rw [escaped_quote hc, List.countP_cons_of_pos hc]
          simp only [List.length_cons, ih]
          omega
      | false =>
          rw [escaped_other hc, List.countP_cons_of_neg (by simp [hc])]
          simp only [List.length_cons, ih]
          omega

theorem nul_not_mem_escaped (hnul : 0 ∉ string) : 0 ∉ escaped string := by
  induction string with
  | nil => exact List.not_mem_nil
  | cons c string ih =>
      rw [List.mem_cons, not_or] at hnul
      cases hc : isQuote c with
      | true => simp [escaped_quote hc, hnul.1, ih hnul.2]
      | false => simp [escaped_other hc, hnul.1, ih hnul.2]

/-- The case of letters does not matter for quotes. -/
theorem isQuote_eq (h : (toLower c).toNat = (toLower d).toNat) : isQuote c = isQuote d := by
  have hall : ∀ n : Fin 256, isQuote (toLower (.ofNat n)) = isQuote (.ofNat n) := by
    decide +kernel
  have hquote : ∀ c : UInt8, isQuote (toLower c) = isQuote c := fun c ↦ by
    simpa using hall ⟨c.toNat, c.toNat_lt⟩
  rw [← hquote c, ← hquote d, UInt8.toNat_inj.mp h]

theorem countP_isQuote_eq (h : fold text = fold string) :
    text.countP isQuote = string.countP isQuote := by
  induction text generalizing string with
  | nil =>
      obtain rfl : string = [] := List.map_eq_nil_iff.mp h.symm
      rfl
  | cons c text ih =>
      cases string with
      | nil => simp [fold] at h
      | cons d string =>
          obtain ⟨hhead, htail⟩ := List.cons.inj h
          rw [List.countP_cons, List.countP_cons, ih htail, isQuote_eq hhead]

/-- The escaped string is read back from the memory that it is written to. -/
theorem cstring_escaped {pl : Platform} (mem : ℤ → UInt8) (p : ℤ) (hnul : 0 ∉ string)
    (hfits : roundUp pl (string.length + string.countP isQuote + 1) < 2 ^ 31) :
    cstring (writeBytes mem p (escaped string ++ [0])) p = escaped string := by
  have hround := le_roundUp pl (string.length + string.countP isQuote + 1)
  refine (spells_writeBytes (nul_not_mem_escaped hnul)).cstring_eq ?_
  rw [length_escaped]
  simp only [addressSpace]
  omega

/-- What `db_quote` relies on: its request for memory can be served. -/
def QuoteServed (pl : Platform) (s : Memory.State) (string : List UInt8) (blk : ℤ) : Prop :=
  (string.countP isQuote = 0 → (Op.memstrlink string blk).Sane pl s) ∧
    (string.countP isQuote ≠ 0 → Serves pl s (string.length + string.countP isQuote + 1) blk)

instance (pl : Platform) (s : Memory.State) (string : List UInt8) (blk : ℤ) :
    Decidable (QuoteServed pl s string blk) :=
  inferInstanceAs (Decidable ((_ → _) ∧ (_ → _)))

/-- In every run the literal made of what `db_quote` returns is read as the string, up to the text
behind it, exactly when every backslash of the string is followed by `%`, `_` or `"`, the string has
a quote character or no other spelling of it is interned, and that text does not begin with a
quote. -/
theorem dbQuote_read_iff {pl : Platform} {guard : Scene → Op → Prop} {x : Scene}
    (hrun : StringRun pl guard x) {string : List UInt8} (hnul : 0 ∉ string) {blk : ℤ}
    (hserved : QuoteServed pl x.state string blk) (rest : List UInt8) :
    ∃ s' p, dbQuote pl x.state string blk = some (s', p) ∧
      (lexLiteral (literal (cstring s'.mem p) ++ rest) = some (string, rest) ↔
        KeepsBackslashes string ∧
          (string.countP isQuote ≠ 0 ∨ NoVariant pl x.state string) ∧ rest.head? ≠ some 39) := by
  have hinterned := hrun.inv.interned
  by_cases hcount : string.countP isQuote = 0
  · obtain ⟨s', r, hcall, hlinked, -⟩ := hinterned.memstrlink hnul (hserved.1 hcount)
    refine ⟨s', _, by rw [dbQuote, if_pos hcount]; exact hcall, ?_⟩
    have hlen : (s'.textOf pl r).length = string.length := by
      have h := congrArg List.length hlinked.fold_eq
      simpa [fold] using h
    have hself : escaped (s'.textOf pl r) = s'.textOf pl r :=
      escaped_eq_self ((countP_isQuote_eq hlinked.fold_eq).trans hcount)
    have hiff : lexLiteral (literal (escaped (s'.textOf pl r)) ++ rest) =
        some (string, rest) ∧ _ ↔ _ :=
      lexLiteral_iff
    rw [hself, and_iff_left hlen, hlinked.text_iff] at hiff
    have hor : (string.countP isQuote ≠ 0 ∨ NoVariant pl x.state string) ↔
        NoVariant pl x.state string := or_iff_right (not_not_intro hcount)
    rw [hor, and_left_comm]
    exact hiff
  · have hserves := hserved.2 hcount
    obtain ⟨s₁, p, hcall, -⟩ := hinterned.memalloc (Nat.succ_pos _) hserves
    refine ⟨{ s₁ with mem := writeBytes s₁.mem p (escaped string ++ [0]) }, p, ?_, ?_⟩
    · simp [dbQuote, hcount, hcall]
    · have hread := cstring_escaped s₁.mem p hnul (hserves (Nat.succ_pos _)).1
      have hiff : lexLiteral (literal (escaped string) ++ rest) = some (string, rest) ∧ _ ↔ _ :=
        lexLiteral_iff
      rw [and_iff_left rfl, eq_self_iff_true, true_and] at hiff
      simp only [hread, hiff, ne_eq, hcount, not_false_eq_true, true_or, true_and]

/-- `it's` is read back from the literal `'it\'s'`. -/
theorem dbQuote_read_apostrophe : ∃ s' p,
    dbQuote lp64 initial [105, 116, 39, 115] 4096 = some (s', p) ∧
      lexLiteral (literal (cstring s'.mem p) ++ [41]) = some ([105, 116, 39, 115], [41]) := by
  have hrun : StringRun lp64 (fun _ _ ↦ True) (Scene.initial 0) := ⟨0, .refl⟩
  have hnul : (0 : UInt8) ∉ [105, 116, 39, 115] := by decide
  have hserved : QuoteServed lp64 (Scene.initial 0).state [105, 116, 39, 115] 4096 := by
    decide +kernel
  obtain ⟨s', p, hcall, hiff⟩ := dbQuote_read_iff hrun hnul hserved [41]
  exact ⟨s', p, hcall, hiff.mpr ⟨by simp [KeepsBackslashes], Or.inl (by decide), by decide⟩⟩

/-- The literal of `\` does not end: the text `OR 1` behind it belongs to it. -/
theorem dbQuote_backslash : ∃ s' p, dbQuote lp64 initial [92] 4096 = some (s', p) ∧
    lexLiteral (literal (cstring s'.mem p) ++ [32, 79, 82, 32, 49]) = none := by
  obtain ⟨⟨s', p⟩, hcall⟩ := Option.isSome_iff_exists.mp
    (by decide +kernel : (dbQuote lp64 initial [92] 4096).isSome = true)
  have hread : (dbQuote lp64 initial [92] 4096).any (fun r ↦
      lexLiteral (literal (cstring r.1.mem r.2) ++ [32, 79, 82, 32, 49]) = none) = true := by
    decide +kernel
  simp only [hcall, Option.any_some, decide_eq_true_eq] at hread
  exact ⟨s', p, hcall, hread⟩

end HavokMud.Mysql
