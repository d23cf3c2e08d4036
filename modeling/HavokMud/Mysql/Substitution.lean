import HavokMud.Mysql.Assembly
import HavokMud.Sequence.Pieces

/-!
# The statement that is sent

Where the whole statement fits into the buffer, `db_query` sends the query pattern with each `?`
replaced by the text of the argument in the same position.  The text of an argument is not searched
again.
-/

namespace HavokMud.Mysql

open BTree Memory Sequence

/-! ## What `db_quote` returns -/

/-- The texts that the calls of `db_quote` return: the escaped string, up to the case of letters. -/
structure QuoteAnswers where
  text : ℕ → List UInt8 → List UInt8
  fold_text : ∀ call string, 0 ∉ string → fold (text call string) = fold (escaped string)

/-- In every run `db_quote` returns such a text. -/
theorem dbQuote_fold {pl : Platform} {guard : Scene → Op → Prop} {x : Scene}
    (hrun : StringRun pl guard x) {string : List UInt8} (hnul : 0 ∉ string) {blk : ℤ}
    (hserved : QuoteServed pl x.state string blk) :
    ∃ s' p, dbQuote pl x.state string blk = some (s', p) ∧
      fold (cstring s'.mem p) = fold (escaped string) := by
  have hinterned := hrun.inv.interned
  by_cases hcount : string.countP isQuote = 0
  · obtain ⟨s', r, hcall, hlinked, -⟩ := hinterned.memstrlink hnul (hserved.1 hcount)
    refine ⟨s', _, by rw [dbQuote, if_pos hcount]; exact hcall, ?_⟩
    rw [escaped_eq_self hcount]
    exact hlinked.fold_eq
  · have hserves := hserved.2 hcount
    obtain ⟨s₁, p, hcall, -⟩ := hinterned.memalloc (Nat.succ_pos _) hserves
    refine ⟨{ s₁ with mem := writeBytes s₁.mem p (escaped string ++ [0]) }, p, ?_, ?_⟩
    · simp [dbQuote, hcount, hcall]
    · rw [cstring_escaped s₁.mem p hnul (hserves (Nat.succ_pos _)).1]

/-! ## The text with the arguments in their places -/

/-- The text that stands for an argument, where `quote` is what `db_quote` returns for it. -/
def rendering (quote : List UInt8 → List UInt8) : Bind → List UInt8
  | .null => nullText
  | .tiny n => literal (decimal n.toInt)
  | .short n => decimal n.toInt
  | .long n => decimal n.toInt
  | .longlong n => decimal n.toInt
  | .string buffer => literal ((buffer.map quote).getD [])
  | .other => []

/-- The texts of the arguments.  The calls of `db_quote` are numbered by the arguments behind. -/
def renderings (quote : QuoteAnswers) : List Bind → List (List UInt8)
  | [] => []
  | arg :: args => rendering (quote.text args.length) arg :: renderings quote args

/-- The pattern with a text in the place of each `?`. -/
def substituted (query : List UInt8) (texts : List (List UInt8)) : List UInt8 :=
  (List.zipWith (fun piece text ↦ piece ++ text) (cut 63 query).1 texts).flatten ++ (cut 63 query).2

variable {quote : QuoteAnswers} {query : List UInt8} {args : List Bind}

theorem mem_decimal {n : ℤ} {c : UInt8} (hc : c ∈ decimal n) : c = 45 ∨ 48 ≤ c ∧ c ≤ 57 := by
  unfold decimal at hc
  rcases List.mem_append.mp hc with hsign | hdigit
  · split_ifs at hsign
    · exact .inl (List.mem_singleton.mp hsign)
    · cases hsign
  · obtain ⟨d, hd, rfl⟩ := List.mem_map.mp hdigit
    have hdigit := Nat.isDigit_of_mem_toDigits (by decide) le_rfl hd
    obtain ⟨hlow, hhigh⟩ : 48 ≤ d.toNat ∧ d.toNat ≤ 57 := by
      simpa [Char.isDigit, UInt32.le_iff_toNat_le] using hdigit
    refine .inr ⟨UInt8.le_iff_toNat_le.mpr ?_, UInt8.le_iff_toNat_le.mpr ?_⟩
    all_goals
      simp only [UInt8.toNat_ofNat', UInt8.reduceToNat]
      omega

/-- A text that is a decimal number up to case is that number. -/
theorem eq_decimal {text : List UInt8} {n : ℤ} (h : fold text = fold (decimal n)) :
    text = decimal n := by
  refine eq_of_fold (fun c hc ↦ ?_) h
  rcases mem_decimal hc with rfl | ⟨-, hle⟩
  · decide
  · have hsmall := UInt8.le_iff_toNat_le.mp hle
    simp only [UInt8.reduceToNat] at hsmall
    unfold Caseless
    simp only [UInt8.le_iff_toNat_le, UInt8.reduceToNat]
    omega

theorem escaped_decimal (n : ℤ) : escaped (decimal n) = decimal n := by
  apply escaped_eq_self
  refine List.countP_eq_zero.mpr fun c hc hquote ↦ ?_
  have hor : c = 39 ∨ c = 34 := by simpa [isQuote] using hquote
  rcases hor with rfl | rfl
  · exact absurd (mem_decimal hc) (by decide)
  · exact absurd (mem_decimal hc) (by decide)

/-- A number is quoted as it is. -/
theorem QuoteAnswers.text_decimal (quote : QuoteAnswers) (call : ℕ) (n : ℤ) :
    quote.text call (decimal n) = decimal n := by
  have hnul : 0 ∉ decimal n := fun hmem ↦ absurd (mem_decimal hmem) (by decide)
  have hfold := quote.fold_text call (decimal n) hnul
  rw [escaped_decimal] at hfold
  exact eq_decimal hfold

theorem argText_eq_rendering (call : ℕ) (arg : Bind) :
    argText quote.text call arg = rendering (quote.text call) arg := by
  cases arg with
  | tiny n => exact congrArg literal (quote.text_decimal call n.toInt)
  | null => rfl
  | short n => rfl
  | long n => rfl
  | longlong n => rfl
  | string buffer => rfl
  | other => rfl

/-! ## The whole statement -/

/-- The first `?` ends the first piece of the pattern. -/
theorem strchr_cases (query : List UInt8) : strchr query = none ∧ 63 ∉ query ∨
    ∃ piece rest, query = piece ++ 63 :: rest ∧ 63 ∉ piece ∧ strchr query = some piece.length := by
  unfold strchr
  by_cases hmem : 63 ∈ query
  · obtain ⟨piece, rest, rfl, hpiece⟩ := List.eq_append_cons_of_mem hmem
    refine .inr ⟨piece, rest, rfl, hpiece, ?_⟩
    have hnone : piece.findIdx? (fun c ↦ decide (c = 63)) = none := by
      refine List.findIdx?_eq_none_iff.mpr fun c hc ↦ decide_eq_false ?_
      rintro rfl
      exact hpiece hc
    rw [List.findIdx?_append, hnone]
    simp [List.findIdx?_cons]
  · refine .inl ⟨List.findIdx?_eq_none_iff.mpr fun c hc ↦ decide_eq_false ?_, hmem⟩
    rintro rfl
    exact hmem hc

theorem strchr_of_not_mem (hquery : 63 ∉ query) : strchr query = none := by
  rcases strchr_cases query with ⟨hnone, -⟩ | ⟨piece, rest, rfl, -⟩
  · exact hnone
  · exact absurd (List.mem_append_right _ List.mem_cons_self) hquery

theorem substituted_of_not_mem (hquery : 63 ∉ query) (texts : List (List UInt8)) :
    substituted query texts = query := by
  rw [substituted, cut_of_not_mem hquery]
  rfl

theorem substituted_cons {piece : List UInt8} (hpiece : 63 ∉ piece) (rest text : List UInt8)
    (texts : List (List UInt8)) : substituted (piece ++ 63 :: rest) (text :: texts) =
      piece ++ (text ++ substituted rest texts) := by
  rw [substituted, cut_append_of_not_mem hpiece, cut_sep]
  simp [substituted, List.append_assoc]

/-- Each `?` has an argument, so the statement is the pattern with the texts in their places. -/
theorem statement_eq_substituted (hcount : query.count 63 ≤ args.length) (htypes : .other ∉ args) :
    statement quote.text args.length query args = substituted query (renderings quote args) := by
  induction args generalizing query with
  | nil =>
      have hquery : 63 ∉ query := List.count_eq_zero.mp (Nat.le_zero.mp hcount)
      rw [substituted_of_not_mem hquery, statement, strchr_of_not_mem hquery]
  | cons arg args ih =>
      obtain ⟨harg, htypes⟩ : .other ≠ arg ∧ .other ∉ args := by simpa using htypes
      rcases strchr_cases query with ⟨hnone, hquery⟩ | ⟨piece, rest, rfl, hpiece, hinsert⟩
      · rw [substituted_of_not_mem hquery, statement, hnone]
      · have hrest : rest.count 63 ≤ args.length := by
          rw [List.count_append, List.count_eq_zero.mpr hpiece, List.count_cons_self,
            List.length_cons] at hcount
          omega
        have hdrop : (piece ++ 63 :: rest).drop (piece.length + 1) = rest := by
          simp [List.drop_append]
        rw [renderings, substituted_cons hpiece, List.length_cons, statement, hinsert]
        dsimp only
        rw [List.take_left, hdrop, advance, if_neg (Ne.symm harg), argText_eq_rendering,
          ih hrest htypes]

/-- Where each `?` of the pattern has an argument and the statement is shorter than the buffer,
`db_query` sends the pattern with each `?` replaced by the text of the argument in its position. -/
theorem dbQuery_substitutes (quote : QuoteAnswers) {size : ℕ} (hsize : size < 2 ^ 31)
    {query : List UInt8} {args : Option (List Bind)}
    (hcount : query.count 63 ≤ (args.getD []).length) (htypes : .other ∉ args.getD [])
    (hfits : (substituted query (renderings quote (args.getD []))).length < size) :
    dbQuery quote.text size query args =
      .send (substituted query (renderings quote (args.getD []))) := by
  have hguard : args = none → strchr query = none := by
    rintro rfl
    exact strchr_of_not_mem (List.count_eq_zero.mp (Nat.le_zero.mp hcount))
  rw [← statement_eq_substituted hcount htypes, statement_eq] at hfits ⊢
  rw [dbQuery_eq_pour quote.text size query args hguard,
    pour_fits (fun p hp ↦ pieces_sound hp) (by omega) (by omega)]
  rfl

/-- The texts of two arguments hold a `?`, and the pattern goes on behind the third. -/
theorem dbQuery_substitutes_three : ∃ quote : QuoteAnswers,
    dbQuery quote.text 64 [97, 63, 44, 63, 44, 63, 98]
      (some [.string (some [63, 39]), .tiny (-5), .string none]) =
        .send [97, 39, 63, 92, 39, 39, 44, 39, 45, 53, 39, 44, 39, 39, 98] :=
  ⟨⟨fun _ ↦ escaped, fun _ _ _ ↦ rfl⟩,
    dbQuery_substitutes ⟨fun _ ↦ escaped, fun _ _ _ ↦ rfl⟩ (by decide) (by decide) (by decide)
      (by decide)⟩

end HavokMud.Mysql
