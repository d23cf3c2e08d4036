import HavokMud.Mysql.Queries
import HavokMud.Mysql.Substitution

/-!
# The tokens of a statement

The server reads a statement as keywords, names between backquotes, values and marks.  A `?` of a
query pattern is a place, and the statement that `db_query` sends has the tokens of the pattern with
values in the places.
-/

namespace HavokMud.Mysql.Sql

open HavokMud.BTree

/-! ## Tokens -/

/-- A value as a statement spells it. -/
inductive SqlValue
  | null
  | number (n : ℤ)
  | text (value : Text)
deriving DecidableEq

inductive Keyword
  | select | from | where | and | order | by | limit | update | set | insert | into | values
deriving DecidableEq

inductive Token
  | word (keyword : Keyword)
  | name (name : Text)
  | mark (c : UInt8)
  | value (value : SqlValue)
  | place
deriving DecidableEq

/-- The bytes of a string of the source, whose characters are those of `s`. -/
def bytes (s : String) {characters : List Char}
    (_ : s = String.ofList characters := by exact rfl) : Text :=
  characters.map fun c ↦ UInt8.ofNat c.toNat

def keywords : List (Text × Keyword) :=
  [(bytes "SELECT", .select), (bytes "FROM", .from), (bytes "WHERE", .where),
    (bytes "AND", .and), (bytes "ORDER", .order), (bytes "BY", .by), (bytes "LIMIT", .limit),
    (bytes "UPDATE", .update), (bytes "SET", .set), (bytes "INSERT", .insert),
    (bytes "INTO", .into), (bytes "VALUES", .values)]

/-- What the server has read of the token it is at. -/
inductive Mode
  | blank
  | word (read : Text)
  | name (read : Text)
  | sign
  | number (negative : Bool) (n : ℕ)
  | place
  /-- Between the quotes of a literal. -/
  | inside (read : Text)
  /-- Behind a backslash of a literal. -/
  | escape (read : Text)
  /-- Behind a quote, which ends the literal unless another one follows. -/
  | closed (read : Text)
deriving DecidableEq

namespace Mode

/-- The token that ends here. -/
def finish : Mode → Option (List Token)
  | blank => some []
  | word read =>
      if read = nullText then some [.value .null]
      else (keywords.lookup read).map fun keyword ↦ [.word keyword]
  | number negative n => some [.value (.number (if negative then -n else n))]
  | place => some [.place]
  | closed read => some [.value (.text read)]
  | _ => none

def isLetter (c : UInt8) : Bool :=
  65 ≤ c ∧ c ≤ 90

def isNameChar (c : UInt8) : Bool :=
  97 ≤ c ∧ c ≤ 122 ∨ c = 95

def isDigit (c : UInt8) : Bool :=
  48 ≤ c ∧ c ≤ 57

/-- A blank and the marks `(`, `)`, `,` and `=` end a token. -/
def delimiter (c : UInt8) : Option (List Token) :=
  if c = 32 then some []
  else if c = 40 ∨ c = 41 ∨ c = 44 ∨ c = 61 then some [.mark c]
  else none

/-- The token that begins with a character. -/
def start (c : UInt8) : Option Mode :=
  if c = 96 then some (name [])
  else if c = 39 then some (inside [])
  else if c = 63 then some place
  else if c = 45 then some sign
  else if isDigit c then some (number false (c.toNat - 48))
  else if isLetter c then some (word [c])
  else none

/-- Another character of a token. -/
def more : Mode → UInt8 → Option (List Token × Mode)
  | blank, c => (start c).map fun m ↦ ([], m)
  | word read, c => if isLetter c then some ([], word (read ++ [c])) else none
  | name read, c =>
      if c = 96 then some ([.name read], blank)
      else if isNameChar c then some ([], name (read ++ [c]))
      else none
  | sign, c => if isDigit c then some ([], number true (c.toNat - 48)) else none
  | number negative n, c =>
      if isDigit c then some ([], number negative (10 * n + (c.toNat - 48))) else none
  | place, _ => none
  | inside read, c =>
      some ([], if c = 92 then escape read else if c = 39 then closed read
        else inside (read ++ [c]))
  | escape read, c => some ([], inside (read ++ escapeValue c))
  | closed read, c => if c = 39 then some ([], inside (read ++ [39])) else none

/-- Inside of a literal every character belongs to it. -/
def quoted : Mode → Bool
  | inside _ => true
  | escape _ => true
  | _ => false

def step (m : Mode) (c : UInt8) : Option (List Token × Mode) :=
  match if m.quoted then none else delimiter c with
  | some marks => m.finish.map fun tokens ↦ (tokens ++ marks, blank)
  | none => m.more c

end Mode

open Mode

/-- The tokens of a text that is read in a mode. -/
def scan : Mode → Text → Option (List Token)
  | m, [] => m.finish
  | m, c :: text => (m.step c).bind fun r ↦ (scan r.2 text).map (r.1 ++ ·)

def tokens (text : Text) : Option (List Token) :=
  scan .blank text

/-- Values in the places. -/
def fill : List Token → List SqlValue → List Token
  | .place :: rest, value :: values => .value value :: fill rest values
  | token :: rest, values => token :: fill rest values
  | [], _ => []

variable {m m' : Mode} {c : UInt8} {text rest value query : Text} {pending values : List SqlValue}
  {read read' : List Token}

/-! ## One character -/

theorem step_of_delimiter {marks : List Token} (hquoted : m.quoted = false)
    (hmarks : delimiter c = some marks) :
    m.step c = m.finish.map fun read ↦ (read ++ marks, .blank) := by
  rw [Mode.step, hquoted]
  simp [hmarks]

theorem step_of_not_delimiter (hmarks : delimiter c = none) : m.step c = m.more c := by
  rw [Mode.step, hmarks, ite_self]

theorem step_of_quoted (hquoted : m.quoted = true) : m.step c = m.more c := by
  rw [Mode.step, hquoted]
  rfl

theorem scan_cons (m' : Mode) (hstep : m.step c = some ([], m')) :
    scan m (c :: text) = scan m' text := by
  rw [scan, hstep]
  cases hscan : scan m' text <;> simp [hscan]

theorem scan_inside (hback : c ≠ 92) (hquote : c ≠ 39) {read : Text} :
    scan (.inside read) (c :: text) = scan (.inside (read ++ [c])) text := by
  apply scan_cons
  rw [step_of_quoted rfl, more, if_neg hback, if_neg hquote]

theorem scan_escape {read : Text} :
    scan (.inside read) (92 :: c :: text) = scan (.inside (read ++ escapeValue c)) text := by
  rw [scan_cons (.escape read) rfl]
  exact scan_cons _ rfl

theorem scan_quote {read : Text} :
    scan (.inside read) (39 :: text) = scan (.closed read) text :=
  scan_cons _ rfl

/-- A literal is read as `lexBody` reads it. -/
theorem scan_lexBody {read : Text} (h : lexBody text = some (value, rest)) :
    scan (.inside read) text = scan (.closed (read ++ value)) rest := by
  fun_induction lexBody text generalizing value rest read with
  | case1 => cases h
  | case2 => cases h
  | case3 d text ih =>
      obtain ⟨v, hv, rfl⟩ := lexBody_map h
      rw [scan_escape, ih hv, List.append_assoc]
  | case4 =>
      obtain ⟨rfl, rfl⟩ := Prod.mk.inj (Option.some.inj h)
      rw [scan_quote, List.append_nil]
  | case5 text _ ih =>
      obtain ⟨v, hv, rfl⟩ := lexBody_map h
      rw [scan_quote, scan_cons (.inside (read ++ [39])) rfl, ih hv, List.append_assoc]
      rfl
  | case6 d text hne =>
      obtain ⟨rfl, rfl⟩ := Prod.mk.inj (Option.some.inj h)
      rw [scan_quote, List.append_nil]
  | case7 c text hback hquote ih =>
      obtain ⟨v, hv, rfl⟩ := lexBody_map h
      rw [scan_inside hback hquote, ih hv, List.append_assoc]
      rfl

/-! ## The text of an argument -/

/-- The value of an argument. -/
def valueOf : Bind → SqlValue
  | .null => .null
  | .tiny n => .text (decimal n.toInt)
  | .short n => .number n.toInt
  | .long n => .number n.toInt
  | .longlong n => .number n.toInt
  | .string buffer => .text (buffer.getD [])
  | .other => .null

/-- A text is read as a value. -/
def Reads (text : Text) (value : SqlValue) : Prop :=
  ∃ m : Mode, m.quoted = false ∧ m.finish = some [.value value] ∧
    ∀ rest, rest.head? ≠ some 39 → scan .blank (text ++ rest) = scan m rest

theorem reads_null : Reads nullText .null :=
  ⟨.word nullText, rfl, rfl, fun rest _ ↦ by
    change scan .blank (78 :: 85 :: 76 :: 76 :: rest) = _
    rw [scan_cons (.word [78]) rfl, scan_cons (.word [78, 85]) rfl,
      scan_cons (.word [78, 85, 76]) rfl, scan_cons (.word nullText) rfl]⟩

/-- A string is read as it is if it keeps its backslashes. -/
theorem reads_literal {string : Text} (hkeeps : KeepsBackslashes string) :
    Reads (literal (escaped string)) (.text string) := by
  refine ⟨.closed string, rfl, rfl, fun rest hrest ↦ ?_⟩
  have happend : literal (escaped string) ++ rest = 39 :: (escaped string ++ 39 :: rest) := by
    simp [literal]
  rw [happend, scan_cons (.inside []) rfl, scan_lexBody (lexBody_escaped hkeeps hrest)]
  rfl

theorem ne_of_isDigit (hdigit : isDigit c = true) {d : UInt8} (hd : isDigit d = false) : c ≠ d := by
  rintro rfl
  rw [hdigit] at hd
  cases hd

theorem step_of_digit (hdigit : isDigit c = true) : m.step c = m.more c := by
  have hne {d : UInt8} (hd : isDigit d = false) : c ≠ d := ne_of_isDigit hdigit hd
  apply step_of_not_delimiter
  rw [delimiter, if_neg (hne rfl), if_neg]
  simp [hne (d := 40) rfl, hne (d := 41) rfl, hne (d := 44) rfl, hne (d := 61) rfl]

theorem start_of_digit (hdigit : isDigit c = true) :
    start c = some (.number false (c.toNat - 48)) := by
  have hne {d : UInt8} (hd : isDigit d = false) : c ≠ d := ne_of_isDigit hdigit hd
  rw [start, if_neg (hne rfl), if_neg (hne rfl), if_neg (hne rfl), if_neg (hne rfl), if_pos hdigit]

/-- The digit of a character. -/
theorem isDigit_ofNat {d : Char} (hd : d.isDigit = true) :
    isDigit (.ofNat d.toNat) = true ∧ (UInt8.ofNat d.toNat).toNat = d.toNat := by
  obtain ⟨hlow, hhigh⟩ : 48 ≤ d.toNat ∧ d.toNat ≤ 57 := by
    simpa [Char.isDigit, UInt32.le_iff_toNat_le] using hd
  have htoNat : (UInt8.ofNat d.toNat).toNat = d.toNat := by
    rw [UInt8.toNat_ofNat']
    omega
  refine ⟨?_, htoNat⟩
  simp only [isDigit, UInt8.le_iff_toNat_le, htoNat, UInt8.reduceToNat, decide_eq_true_eq]
  exact ⟨hlow, hhigh⟩

theorem scan_digits {negative : Bool} {digits : List Char} {k : ℕ}
    (hdigits : ∀ d ∈ digits, d.isDigit = true) :
    scan (.number negative k) (digits.map (fun d ↦ UInt8.ofNat d.toNat) ++ rest) =
      scan (.number negative (Nat.ofDigitChars 10 digits k)) rest := by
  induction digits generalizing k with
  | nil =>
      rw [Nat.ofDigitChars_nil]
      rfl
  | cons d digits ih =>
      obtain ⟨hd, hdigits⟩ := List.forall_mem_cons.mp hdigits
      obtain ⟨hdigit, htoNat⟩ := isDigit_ofNat hd
      have hstep : (Mode.number negative k).step (.ofNat d.toNat) =
          some ([], .number negative (10 * k + (d.toNat - 48))) := by
        rw [step_of_digit hdigit, more, if_pos hdigit, htoNat]
      rw [List.map_cons, List.cons_append, scan_cons _ hstep, ih hdigits, Nat.ofDigitChars_cons]
      rfl

theorem reads_decimal (n : ℤ) : Reads (decimal n) (.number n) := by
  have hall : ∀ d ∈ Nat.toDigits 10 n.natAbs, d.isDigit = true :=
    fun d hd ↦ Nat.isDigit_of_mem_toDigits (by decide) le_rfl hd
  have hvalue := Nat.ofDigitChars_ten_toDigits (n := n.natAbs)
  have hne : Nat.toDigits 10 n.natAbs ≠ [] := Nat.toDigits_ne_nil
  obtain ⟨d, digits, hdigits⟩ := List.exists_cons_of_ne_nil hne
  rw [hdigits] at hall hvalue
  obtain ⟨hd, hrest⟩ := List.forall_mem_cons.mp hall
  obtain ⟨hdigit, htoNat⟩ := isDigit_ofNat hd
  rw [Nat.ofDigitChars_cons, Nat.mul_zero, Nat.zero_add] at hvalue
  refine ⟨.number (n < 0) n.natAbs, rfl, ?_, fun rest _ ↦ ?_⟩
  · simp only [finish, decide_eq_true_eq]
    congr 4
    split_ifs <;> omega
  · rw [decimal, hdigits, List.map_cons]
    by_cases hneg : n < 0
    · have hstep : Mode.sign.step (.ofNat d.toNat) = some ([], .number true (d.toNat - 48)) := by
        rw [step_of_digit hdigit, more, if_pos hdigit, htoNat]
      rw [if_pos hneg, List.append_assoc, List.singleton_append, List.cons_append,
        scan_cons .sign rfl, scan_cons _ hstep, scan_digits hrest, decide_eq_true hneg]
      exact congrArg (fun k ↦ scan (.number true k) rest) hvalue
    · have hstep : Mode.blank.step (.ofNat d.toNat) = some ([], .number false (d.toNat - 48)) := by
        rw [step_of_digit hdigit, more, start_of_digit hdigit, htoNat]
        rfl
      rw [if_neg hneg, List.nil_append, List.cons_append, scan_cons _ hstep, scan_digits hrest,
        decide_eq_false hneg]
      exact congrArg (fun k ↦ scan (.number false k) rest) hvalue

/-! ## Values in the places -/

/-- The modes that the statement and the pattern are read in, and the values that are read already
for a place that has not ended. -/
inductive Stands : Mode → Mode → List SqlValue → Prop
  | same {m : Mode} : m.quoted = false → m ≠ .place → Stands m m []
  | held {m : Mode} {value : SqlValue} : m.quoted = false → m.finish = some [.value value] →
      Stands m .place [value]

theorem fill_append (h : .place ∉ read) (values : List SqlValue) :
    fill (read ++ read') values = read ++ fill read' values := by
  induction read with
  | nil => rfl
  | cons token read ih =>
      rw [List.mem_cons, not_or] at h
      cases token with
      | place => exact absurd rfl h.1
      | _ => exact congrArg _ (ih h.2)

theorem fill_of_not_mem (h : .place ∉ read) (values : List SqlValue) : fill read values = read := by
  have happend : fill (read ++ []) values = read ++ fill [] values := fill_append h values
  rwa [List.append_nil, fill, List.append_nil] at happend

/-- Only a place ends as a place. -/
theorem finish_ne_place (hm : m ≠ .place) (h : m.finish = some read) : .place ∉ read := by
  cases m with
  | place => exact absurd rfl hm
  | word text =>
      simp only [finish] at h
      split_ifs at h with hnull
      · cases h
        simp
      · obtain ⟨keyword, -, rfl⟩ := Option.map_eq_some_iff.mp h
        simp
  | _ => cases h <;> simp

theorem delimiter_ne_place (h : delimiter c = some read) : .place ∉ read := by
  unfold delimiter at h
  split_ifs at h <;> cases h <;> simp

/-- The pattern holds no quotes, so it is never read as a literal. -/
theorem more_same (hquoted : m.quoted = false) (hm : m ≠ .place) (hquote : c ≠ 39) (hplace : c ≠ 63)
    (h : m.more c = some (read, m')) : .place ∉ read ∧ m'.quoted = false ∧ m' ≠ .place := by
  cases m with
  | blank =>
      simp only [more, start, if_neg hquote, if_neg hplace] at h
      split_ifs at h <;> cases h <;> simp [quoted]
  | word text =>
      simp only [more] at h
      split_ifs at h
      cases h
      simp [quoted]
  | name text =>
      simp only [more] at h
      split_ifs at h <;> cases h <;> simp [quoted]
  | sign =>
      simp only [more] at h
      split_ifs at h
      cases h
      simp [quoted]
  | number negative n =>
      simp only [more] at h
      split_ifs at h
      cases h
      simp [quoted]
  | place => exact absurd rfl hm
  | inside text => cases hquoted
  | escape text => cases hquoted
  | closed text => simp [more, hquote] at h

/-- One character of the pattern that is neither a quote nor a place. -/
theorem Stands.step (h : Stands m m' pending) (hquote : c ≠ 39) (hplace : c ≠ 63)
    {r' : List Token × Mode} (hstep : m'.step c = some r') :
    ∃ (r : List Token × Mode) (left : List SqlValue), m.step c = some r ∧ Stands r.2 r'.2 left ∧
      ∀ behind values, fill (r'.1 ++ behind) (pending ++ values) =
        r.1 ++ fill behind (left ++ values) := by
  cases h with
  | same hquoted hm =>
      refine ⟨r', [], hstep, ?_⟩
      cases hmarks : delimiter c with
      | some marks =>
          rw [step_of_delimiter hquoted hmarks] at hstep
          obtain ⟨finished, hfinish, rfl⟩ := Option.map_eq_some_iff.mp hstep
          refine ⟨.same rfl nofun, fun behind values ↦ fill_append ?_ _⟩
          rw [List.mem_append, not_or]
          exact ⟨finish_ne_place hm hfinish, delimiter_ne_place hmarks⟩
      | none =>
          rw [step_of_not_delimiter hmarks] at hstep
          obtain ⟨hread, hquoted', hm'⟩ := more_same hquoted hm hquote hplace hstep
          exact ⟨.same hquoted' hm', fun behind values ↦ fill_append hread _⟩
  | @held value hquoted hfinish =>
      cases hmarks : delimiter c with
      | some marks =>
          rw [step_of_delimiter rfl hmarks] at hstep
          cases hstep
          refine ⟨(.value value :: marks, .blank), [], ?_, .same rfl nofun, fun behind values ↦ ?_⟩
          · rw [step_of_delimiter hquoted hmarks, hfinish]
            rfl
          · exact congrArg _ (fill_append (delimiter_ne_place hmarks) values)
      | none =>
          rw [step_of_not_delimiter hmarks] at hstep
          cases hstep

/-- A place begins a token. -/
theorem step_place (hquoted : m.quoted = false) {r : List Token × Mode} (h : m.step 63 = some r) :
    m = .blank ∧ r = ([], .place) := by
  rw [step_of_not_delimiter rfl] at h
  cases m with
  | blank => exact ⟨rfl, (Option.some.inj h).symm⟩
  | inside text => cases hquoted
  | escape text => cases hquoted
  | _ => cases h

theorem Stands.quoted (h : Stands m m' pending) : m'.quoted = false := by
  cases h with
  | same hquoted _ => exact hquoted
  | held _ _ => rfl

/-- A character that is no place stands before the rest of the statement. -/
theorem substituted_char (hplace : c ≠ 63) {texts : List Text}
    (hcount : query.count 63 ≤ texts.length) :
    substituted (c :: query) texts = c :: substituted query texts := by
  rcases strchr_cases query with ⟨-, hnot⟩ | ⟨piece, rest, rfl, hpiece, -⟩
  · rw [substituted_of_not_mem hnot, substituted_of_not_mem]
    simp [Ne.symm hplace, hnot]
  · obtain ⟨text, texts, rfl⟩ : ∃ text texts', texts = text :: texts' := by
      apply List.exists_cons_of_ne_nil
      rintro rfl
      simp [List.count_append] at hcount
    have hpiece' : 63 ∉ c :: piece := by simp [Ne.symm hplace, hpiece]
    rw [substituted_cons hpiece, ← List.cons_append, substituted_cons hpiece']
    rfl

/-- Behind a place stands no quote. -/
theorem head_substituted {texts : List Text} (hquotes : 39 ∉ query)
    (hcount : query.count 63 ≤ texts.length) (hscan : scan .place query = some read) :
    (substituted query texts).head? ≠ some 39 := by
  cases query with
  | nil => simp [substituted_of_not_mem]
  | cons c query =>
      obtain ⟨hquote, -⟩ : 39 ≠ c ∧ 39 ∉ query := by simpa using hquotes
      have hplace : c ≠ 63 := by
        rintro rfl
        cases hscan
      rw [List.count_cons_of_ne hplace] at hcount
      rw [substituted_char hplace hcount]
      simpa using Ne.symm hquote

/-- Where the texts are read as values, the statement has the tokens of the pattern with the values
in the places. -/
theorem scan_substituted {texts : List Text} (hreads : List.Forall₂ Reads texts values)
    (hquotes : 39 ∉ query) (hcount : query.count 63 ≤ texts.length)
    (hstands : Stands m m' pending) (hscan : scan m' query = some read) :
    scan m (substituted query texts) = some (fill read (pending ++ values)) := by
  induction query generalizing m m' pending texts values read with
  | nil =>
      rw [substituted_of_not_mem List.not_mem_nil]
      cases hstands with
      | same _ hm =>
          rw [fill_of_not_mem (finish_ne_place hm hscan)]
          exact hscan
      | held _ hfinish =>
          cases hscan
          exact hfinish
  | cons c query ih =>
      obtain ⟨hquote, hbelow⟩ : 39 ≠ c ∧ 39 ∉ query := by simpa using hquotes
      rw [scan] at hscan
      obtain ⟨r', hstep, hrest⟩ := Option.bind_eq_some_iff.mp hscan
      obtain ⟨behind, hbehind, rfl⟩ := Option.map_eq_some_iff.mp hrest
      by_cases hplace : c = 63
      · subst hplace
        obtain ⟨rfl, rfl⟩ := step_place hstands.quoted hstep
        cases hstands with
        | same _ _ =>
        cases hreads with
        | nil => simp at hcount
        | @cons text value texts values hread hreads =>
        rw [List.count_cons_self, List.length_cons] at hcount
        have hleft : query.count 63 ≤ texts.length := by omega
        obtain ⟨m, hquoted, hfinish, hscan⟩ := hread
        rw [← List.nil_append (63 :: query), substituted_cons List.not_mem_nil, List.nil_append,
          hscan _ (head_substituted hbelow hleft hbehind)]
        have hfilled := ih hreads hbelow hleft (.held hquoted hfinish) hbehind
        exact hfilled
      · obtain ⟨r, left, hstep', hstands', hfill⟩ := hstands.step (Ne.symm hquote) hplace hstep
        rw [List.count_cons_of_ne hplace] at hcount
        rw [substituted_char hplace hcount, scan, hstep', Option.bind_some,
          ih hreads hbelow hcount hstands' hbehind, hfill]
        rfl

/-- The arguments that are read from their texts.  A string is only escaped, and it keeps its
backslashes. -/
def Readable (quote : List UInt8 → List UInt8) : Bind → Prop
  | .string buffer => ∀ string ∈ buffer, quote string = escaped string ∧ KeepsBackslashes string
  | .other => False
  | _ => True

theorem keepsBackslashes_of_not_mem {string : Text} (h : 92 ∉ string) :
    KeepsBackslashes string := by
  induction string with
  | nil => exact trivial
  | cons c string ih =>
      rw [List.mem_cons, not_or] at h
      exact ⟨fun hback ↦ absurd hback.symm h.1, ih h.2⟩

theorem reads_rendering {quote : QuoteAnswers} {call : ℕ} {arg : Bind}
    (h : Readable (quote.text call) arg) :
    Reads (rendering (quote.text call) arg) (valueOf arg) := by
  cases arg with
  | null => exact reads_null
  | tiny n =>
      have hback : 92 ∉ decimal n.toInt := fun hmem ↦ absurd (mem_decimal hmem) (by decide)
      have hread := reads_literal (keepsBackslashes_of_not_mem hback)
      rwa [escaped_decimal] at hread
  | short n => exact reads_decimal n.toInt
  | long n => exact reads_decimal n.toInt
  | longlong n => exact reads_decimal n.toInt
  | string buffer =>
      cases buffer with
      | none =>
          have hread : Reads (literal (escaped [])) (.text []) := reads_literal trivial
          exact hread
      | some string =>
          obtain ⟨hquote, hkeeps⟩ := h string rfl
          have hread := reads_literal hkeeps
          rwa [← hquote] at hread
  | other => exact h.elim

theorem reads_renderings {quote : QuoteAnswers} {args : List Bind}
    (h : ∀ call, ∀ arg ∈ args, Readable (quote.text call) arg) :
    List.Forall₂ Reads (renderings quote args) (args.map valueOf) := by
  induction args with
  | nil => exact .nil
  | cons arg args ih =>
      refine .cons (reads_rendering (h _ arg List.mem_cons_self)) (ih fun call arg hmem ↦ ?_)
      exact h call arg (List.mem_cons_of_mem _ hmem)

theorem length_renderings (quote : QuoteAnswers) (args : List Bind) :
    (renderings quote args).length = args.length := by
  induction args with
  | nil => rfl
  | cons arg args ih => exact congrArg (· + 1) ih

/-- The statement that `db_query` sends has the tokens of the pattern, with the values of the
arguments in the places. -/
theorem dbQuery_tokens {quote : QuoteAnswers} {size : ℕ} (hsize : size < 2 ^ 31)
    {args : List Bind} (hquotes : 39 ∉ query) (hcount : query.count 63 ≤ args.length)
    (hargs : ∀ call, ∀ arg ∈ args, Readable (quote.text call) arg)
    (hfits : (substituted query (renderings quote args)).length < size)
    (htokens : tokens query = some read) :
    ∃ statement, dbQuery quote.text size query (some args) = .send statement ∧
      tokens statement = some (fill read (args.map valueOf)) := by
  have htypes : .other ∉ args := fun hmem ↦ hargs 0 .other hmem
  have hsend : dbQuery quote.text size query (some args) =
      .send (substituted query (renderings quote args)) :=
    dbQuery_substitutes quote hsize hcount htypes hfits
  have hlength : query.count 63 ≤ (renderings quote args).length := by
    rwa [length_renderings]
  have hblank : Stands .blank .blank [] := .same rfl nofun
  exact ⟨_, hsend, scan_substituted (reads_renderings hargs) hquotes hlength hblank htokens⟩

end HavokMud.Mysql.Sql
