import HavokMud.Json.Values
import Mathlib.Data.Nat.Digits.Lemmas
import Mathlib.Tactic.IntervalCases

/-!
# Printed values are read back

A string is printed without loss unless it has a control byte that JSON names no escape for, and a
number as long as it fits 32 bits.  What is printed of such a value is read back by `cJSON_Parse`.
-/

namespace HavokMud.Json

/-! ## Blanks -/

theorem skip_of_lt {c : UInt8} (hc : 32 < c) (rest : Text) :
    skip (c :: rest) = some (c :: rest) := by
  rw [skip, if_neg]
  exact UInt8.not_le.mpr hc

theorem skip_tabs (depth : ℕ) (rest : Text) : skip (tabs depth ++ rest) = skip rest := by
  unfold tabs
  induction depth with
  | zero => rfl
  | succ depth ih =>
      rw [List.replicate_succ, List.cons_append, skip, if_pos (by decide), ih]

theorem skip_newline (rest : Text) : skip (10 :: rest) = skip rest := by
  rw [skip, if_pos (by decide)]

theorem skip_tab (rest : Text) : skip (9 :: rest) = skip rest := by
  rw [skip, if_pos (by decide)]

theorem skip_space (rest : Text) : skip (32 :: rest) = skip rest := by
  rw [skip, if_pos (by decide)]

/-! ## Strings -/

/-- No byte of the text is lost in printing. -/
def PrintableText (text : Text) : Prop :=
  ∀ c ∈ text, printByte c ≠ []

/-- A byte is printed as it is, behind a backslash, or not at all. -/
theorem printByte_cases (c : UInt8) :
    (31 < c ∧ c ≠ 34 ∧ c ≠ 92) ∧ printByte c = [c] ∨
      (∃ d, d ≠ 117 ∧ unescape d = c ∧ printByte c = [92, d]) ∨
      ¬ 31 < c ∧ printByte c = [] := by
  by_cases hplain : 31 < c ∧ c ≠ 34 ∧ c ≠ 92
  · exact .inl ⟨hplain, if_pos hplain⟩
  by_cases hback : c = 92
  · exact .inr (.inl ⟨92, by decide, hback.symm, congrArg printByte hback⟩)
  by_cases hquote : c = 34
  · exact .inr (.inl ⟨34, by decide, hquote.symm, congrArg printByte hquote⟩)
  by_cases hbackspace : c = 8
  · exact .inr (.inl ⟨98, by decide, hbackspace.symm, congrArg printByte hbackspace⟩)
  by_cases hfeed : c = 12
  · exact .inr (.inl ⟨102, by decide, hfeed.symm, congrArg printByte hfeed⟩)
  by_cases hnewline : c = 10
  · exact .inr (.inl ⟨110, by decide, hnewline.symm, congrArg printByte hnewline⟩)
  by_cases hreturn : c = 13
  · exact .inr (.inl ⟨114, by decide, hreturn.symm, congrArg printByte hreturn⟩)
  by_cases htab : c = 9
  · exact .inr (.inl ⟨116, by decide, htab.symm, congrArg printByte htab⟩)
  refine .inr (.inr ⟨fun hlow ↦ hplain ⟨hlow, hquote, hback⟩, ?_⟩)
  rw [printByte, if_neg hplain, if_neg hback, if_neg hquote, if_neg hbackspace, if_neg hfeed,
    if_neg hnewline, if_neg hreturn, if_neg htab]

theorem printableText_of_le {text : Text} (h : ∀ c ∈ text, 32 ≤ c) : PrintableText text := by
  intro c hc
  have hlow : 31 < c := UInt8.lt_iff_toNat_lt.mpr (UInt8.le_iff_toNat_le.mp (h c hc))
  rcases printByte_cases c with ⟨-, hprint⟩ | ⟨d, -, -, hprint⟩ | ⟨hcontrol, -⟩
  · rw [hprint]
    exact List.cons_ne_nil _ _
  · rw [hprint]
    exact List.cons_ne_nil _ _
  · exact absurd hlow hcontrol

theorem parseBytes_plain {c : UInt8} (hlow : 31 < c) (hquote : c ≠ 34) (hback : c ≠ 92)
    (rest : Text) :
    parseBytes (c :: rest) = (parseBytes rest).map fun p ↦ (c :: p.1, p.2) := by
  rw [parseBytes.eq_def]
  simp only [if_neg hquote, if_neg (UInt8.not_le.mpr hlow), if_pos hback]

theorem parseBytes_escape {d : UInt8} (hd : d ≠ 117) (rest : Text) :
    parseBytes (92 :: d :: rest) = (parseBytes rest).map fun p ↦ (unescape d :: p.1, p.2) := by
  rw [parseBytes.eq_def]
  simp only [if_pos hd]
  rfl

theorem parseBytes_printByte {c : UInt8} (hc : printByte c ≠ []) (rest : Text) :
    parseBytes (printByte c ++ rest) = (parseBytes rest).map fun p ↦ (c :: p.1, p.2) := by
  rcases printByte_cases c with ⟨⟨hlow, hquote, hback⟩, hprint⟩ | ⟨d, hd, rfl, hprint⟩ | ⟨-, hlost⟩
  · rw [hprint]
    exact parseBytes_plain hlow hquote hback rest
  · rw [hprint]
    exact parseBytes_escape hd rest
  · exact absurd hlost hc

theorem parseBytes_printString {text : Text} (htext : PrintableText text) (rest : Text) :
    parseBytes (text.flatMap printByte ++ 34 :: rest) = some (text, rest) := by
  induction text with
  | nil =>
      rw [List.flatMap_nil, List.nil_append, parseBytes.eq_def]
      rfl
  | cons c text ih =>
      rw [List.flatMap_cons, List.append_assoc,
        parseBytes_printByte (htext c List.mem_cons_self),
        ih fun d hd ↦ htext d (List.mem_cons_of_mem c hd)]
      rfl

theorem parseString_printString {text : CString} (htext : PrintableText text) (rest : Text) :
    parseString (printString text ++ rest) = some (text, rest) := by
  unfold printString parseString
  simp only [List.cons_append, List.append_assoc]
  rw [parseBytes_printString htext, Option.map_some, CString.ofBytes_val]
  rfl

/-! ## Numbers -/

/-- The bytes behind a value: the end of the text, a comma, a blank, a newline or a bracket. -/
def Follows (rest : Text) : Prop :=
  ∀ c ∈ rest.head?, c = 44 ∨ c = 32 ∨ c = 10 ∨ c = 93

/-- The byte of a digit. -/
def digitByte (d : ℕ) : UInt8 :=
  48 + UInt8.ofNat d

theorem digitByte_spec {d : ℕ} (hd : d < 10) :
    (48 ≤ digitByte d ∧ digitByte d ≤ 57) ∧ (digitByte d - 48).toNat = d := by
  interval_cases d <;> decide

theorem digitByte_pos {d : ℕ} (hd : d < 10) (hpos : d ≠ 0) :
    49 ≤ digitByte d ∧ digitByte d ≤ 57 := by
  interval_cases d <;> first | decide | exact absurd rfl hpos

theorem parseDigits_append {digits : List ℕ} (hdigits : ∀ d ∈ digits, d < 10) (n : ℕ) {rest : Text}
    (hrest : Follows rest) :
    parseDigits n (digits.map digitByte ++ rest) =
      (digits.foldl (fun n d ↦ 10 * n + d) n, rest) := by
  induction digits generalizing n with
  | nil =>
      cases rest with
      | nil => rfl
      | cons c rest =>
          rw [List.map_nil, List.nil_append, parseDigits, if_neg]
          · rfl
          · rcases hrest c rfl with rfl | rfl | rfl | rfl <;> decide
  | cons d digits ih =>
      obtain ⟨hrange, hvalue⟩ := digitByte_spec (hdigits d List.mem_cons_self)
      rw [List.map_cons, List.cons_append, parseDigits, if_pos hrange, hvalue,
        ih fun e he ↦ hdigits e (List.mem_cons_of_mem d he)]
      rfl

/-- The digits of a number that is not zero, from the left. -/
theorem exists_digits {n : ℕ} (hn : n ≠ 0) :
    ∃ d digits, (Nat.digits 10 n).reverse = d :: digits ∧ d ≠ 0 ∧ (∀ e ∈ d :: digits, e < 10) ∧
      (d :: digits).foldl (fun n d ↦ 10 * n + d) 0 = n := by
  have hne : Nat.digits 10 n ≠ [] := Nat.digits_ne_nil_iff_ne_zero.mpr hn
  have hlast := Nat.getLast_digit_ne_zero 10 hn
  cases hdigits : (Nat.digits 10 n).reverse with
  | nil => exact absurd (List.reverse_eq_nil_iff.mp hdigits) hne
  | cons d digits =>
      have hsplit : Nat.digits 10 n = (d :: digits).reverse := by
        rw [← hdigits, List.reverse_reverse]
      refine ⟨d, digits, rfl, ?_, ?_, ?_⟩
      · simpa [hsplit] using hlast
      · intro e he
        apply Nat.digits_lt_base (b := 10) (m := n) (by decide)
        rw [hsplit, List.mem_reverse]
        exact he
      · calc (d :: digits).foldl (fun n d ↦ 10 * n + d) 0
            = (Nat.digits 10 n).foldr (fun d n ↦ 10 * n + d) 0 := by
              rw [hsplit, List.foldr_reverse]
          _ = Nat.ofDigits 10 (Nat.digits 10 n) := by
              rw [Nat.ofDigits_eq_foldr]
              simp [Nat.add_comm]
          _ = n := Nat.ofDigits_digits 10 n

theorem parseUnsigned_of_follows {rest : Text} (hrest : Follows rest) :
    parseUnsigned rest = (0, rest) := by
  unfold parseUnsigned
  rw [if_neg]
  cases rest with
  | nil => decide
  | cons c rest =>
      rw [List.head?_cons, Option.any_some]
      rcases hrest c rfl with rfl | rfl | rfl | rfl <;> decide

/-- The printed digits of a number that is not zero, with no zero or sign at their head. -/
theorem parseUnsigned_digits {n : ℕ} (hn : n ≠ 0) {rest : Text} (hrest : Follows rest) :
    ∃ c tail, (Nat.digits 10 n).reverse.map digitByte = c :: tail ∧ c ≠ 45 ∧ c ≠ 48 ∧
      parseUnsigned (c :: tail ++ rest) = (n, rest) := by
  obtain ⟨d, digits, hdigits, hpos, hlt, hvalue⟩ := exists_digits hn
  have hrange := digitByte_pos (hlt d List.mem_cons_self) hpos
  refine ⟨digitByte d, digits.map digitByte, by rw [hdigits]; rfl, ?_, ?_, ?_⟩
  · intro heq
    rw [heq] at hrange
    exact absurd hrange (by decide)
  · intro heq
    rw [heq] at hrange
    exact absurd hrange (by decide)
  · unfold parseUnsigned
    rw [if_pos (by simpa using hrange), ← List.map_cons, parseDigits_append hlt 0 hrest, hvalue]

theorem parseSign_of_ne {c : UInt8} (hc : c ≠ 45) (rest : Text) :
    parseSign (c :: rest) = (false, c :: rest) := by
  unfold parseSign
  split
  · simp_all
  · rfl

theorem skipZero_of_ne {c : UInt8} (hc : c ≠ 48) (rest : Text) :
    skipZero (c :: rest) = c :: rest := by
  unfold skipZero
  split
  · simp_all
  · rfl

/-- `parse_number` behind the sign. -/
theorem parseNumber_of_digits {text rest : Text} (negative : Bool) (digits : Text) (n : ℕ)
    (hsign : parseSign text = (negative, digits))
    (hdigits : parseUnsigned (skipZero digits) = (n, rest))
    (hrest : Follows rest) {value : ℤ} (hvalue : value = if negative then -(n : ℤ) else n)
    (hlow : -2 ^ 31 ≤ value) (hhigh : value < 2 ^ 31) :
    parseNumber text = some (.number value, rest) := by
  have hend : ¬ (rest.head? = some 46 ∨ rest.head? = some 101 ∨ rest.head? = some 69) := by
    rintro (h | h | h) <;> rcases hrest _ h with h' | h' | h' | h' <;> cases h'
  unfold parseNumber
  simp only [hsign, hdigits, if_neg hend, ← hvalue]
  rw [if_pos ⟨hlow, hhigh⟩]

theorem parseNumber_printNumber {value : ℤ} (hlow : -2 ^ 31 ≤ value) (hhigh : value < 2 ^ 31)
    {rest : Text} (hrest : Follows rest) :
    parseNumber (printNumber value ++ rest) = some (.number value, rest) := by
  by_cases hzero : value = 0
  · subst hzero
    exact parseNumber_of_digits false (48 :: rest) 0 rfl (parseUnsigned_of_follows hrest) hrest rfl
      hlow hhigh
  · obtain ⟨c, tail, hdigits, hsign, hne, hparse⟩ :=
      parseUnsigned_digits (n := value.natAbs) (by omega) hrest
    have hprint : printNumber value = (if value < 0 then [45] else []) ++ c :: tail := by
      unfold printNumber
      rw [if_neg hzero, ← hdigits, List.map_reverse]
      rfl
    rw [List.cons_append, ← skipZero_of_ne hne] at hparse
    by_cases hneg : value < 0
    · apply parseNumber_of_digits true
        (c :: (tail ++ rest)) value.natAbs _ hparse hrest _ hlow hhigh
      · rw [hprint, if_pos hneg]
        rfl
      · simp only [if_true]
        omega
    · apply parseNumber_of_digits false
        (c :: (tail ++ rest)) value.natAbs _ hparse hrest _ hlow hhigh
      · rw [hprint, if_neg hneg]
        exact parseSign_of_ne hsign _
      · simp only [Bool.false_eq_true, if_false]
        omega

/-- A printed number begins with a minus sign or a digit. -/
theorem exists_printNumber (value : ℤ) :
    ∃ c tail, printNumber value = c :: tail ∧ (c = 45 ∨ 48 ≤ c ∧ c ≤ 57) := by
  unfold printNumber
  by_cases hneg : value < 0
  · rw [if_pos hneg]
    exact ⟨45, _, rfl, .inl rfl⟩
  rw [if_neg hneg, List.nil_append]
  by_cases hzero : value = 0
  · rw [if_pos hzero]
    exact ⟨48, [], rfl, .inr (by decide)⟩
  · rw [if_neg hzero]
    obtain ⟨d, digits, hdigits, hpos, hlt, -⟩ := exists_digits (n := value.natAbs) (by omega)
    refine ⟨digitByte d, digits.map digitByte, ?_,
      .inr (digitByte_spec (hlt d List.mem_cons_self)).1⟩
    rw [← List.map_reverse, hdigits]
    rfl

/-! ## Values -/

/-- The values that are printed without loss. -/
inductive Printable : Value → Prop
  | null : Printable .null
  | false : Printable .false
  | true : Printable .true
  | number {value : ℤ} (hlow : -2 ^ 31 ≤ value) (hhigh : value < 2 ^ 31) : Printable (.number value)
  | string {text : CString} (htext : PrintableText text) : Printable (.string text)
  | array {items : List Value} (hitems : ∀ item ∈ items, Printable item) : Printable (.array items)
  | object {members : List (CString × Value)} (hnames : ∀ member ∈ members, PrintableText member.1)
      (hvalues : ∀ member ∈ members, Printable member.2) : Printable (.object members)

/-- What a printed value begins with. -/
theorem exists_printValue (value : Value) (depth : ℕ) :
    ∃ c tail, printValue value depth = c :: tail ∧ 32 < c ∧ c ≠ 93 ∧ c ≠ 125 := by
  cases value with
  | null => exact ⟨110, _, printValue.eq_1 depth, by decide⟩
  | false => exact ⟨102, _, printValue.eq_2 depth, by decide⟩
  | true => exact ⟨116, _, printValue.eq_3 depth, by decide⟩
  | number value =>
      obtain ⟨c, tail, hprint, hc⟩ := exists_printNumber value
      refine ⟨c, tail, by rw [printValue, hprint], ?_⟩
      rcases hc with rfl | ⟨hlow, hhigh⟩
      · decide
      · refine ⟨UInt8.lt_of_lt_of_le (by decide) hlow, ?_, ?_⟩ <;> rintro rfl <;>
          exact absurd hhigh (by decide)
  | string text => exact ⟨34, _, by rw [printValue, printString], by decide⟩
  | array items => exact ⟨91, _, by rw [printValue], by decide⟩
  | object members => exact ⟨123, _, by rw [printValue], by decide⟩

/-- A value at the head of a text is read, and what stands behind it is left. -/
def Reads (value : Value) : Prop :=
  ∀ depth fuel rest, (printValue value depth).length ≤ fuel → Follows rest →
    parseValue fuel (printValue value depth ++ rest) = some (value, rest)

/-- `parse_value` when the text begins with none of the three words. -/
theorem parseValue_cons {c : UInt8} (hnull : c ≠ 110) (hfalse : c ≠ 102)
    (htrue : c ≠ 116) (fuel : ℕ)
    (rest : Text) :
    parseValue (fuel + 1) (c :: rest) =
      if c = 34 then (parseString (c :: rest)).map fun p ↦ (.string p.1, p.2)
      else if c = 45 ∨ 48 ≤ c ∧ c ≤ 57 then parseNumber (c :: rest)
      else if c = 91 then
        (skip rest).bind fun text ↦
          if text.head? = some 93 then some (.array [], text.tail)
          else (parseItems fuel text).map fun p ↦ (.array p.1, p.2)
      else if c = 123 then
        (skip rest).bind fun text ↦
          if text.head? = some 125 then some (.object [], text.tail)
          else (parseMembers fuel text).map fun p ↦ (.object p.1, p.2)
      else none := by
  rw [parseValue]
  simp only [List.take_succ_cons, List.cons.injEq, hnull, hfalse, htrue, false_and, if_false]

theorem reads_number {value : ℤ} (hlow : -2 ^ 31 ≤ value) (hhigh : value < 2 ^ 31) :
    Reads (.number value) := by
  intro depth fuel rest hfuel hrest
  obtain ⟨c, tail, hprint, hc⟩ := exists_printNumber value
  have hparse := parseNumber_printNumber hlow hhigh hrest
  rw [printValue, hprint] at hfuel ⊢
  rw [hprint] at hparse
  obtain ⟨fuel, rfl⟩ := Nat.exists_eq_add_of_lt (Nat.lt_of_lt_of_le (Nat.succ_pos _) hfuel)
  have hwords : c ≠ 110 ∧ c ≠ 102 ∧ c ≠ 116 ∧ c ≠ 34 := by
    rcases hc with rfl | ⟨hlow, hhigh⟩
    · decide
    · refine ⟨?_, ?_, ?_, ?_⟩ <;> rintro rfl
      · exact absurd hhigh (by decide)
      · exact absurd hhigh (by decide)
      · exact absurd hhigh (by decide)
      · exact absurd hlow (by decide)
  rw [List.cons_append] at hparse ⊢
  rw [Nat.zero_add, parseValue_cons hwords.1 hwords.2.1 hwords.2.2.1,
    if_neg hwords.2.2.2, if_pos hc,
    hparse]

theorem reads_string {text : CString} (htext : PrintableText text) : Reads (.string text) := by
  intro depth fuel rest hfuel hrest
  have hparse := parseString_printString htext rest
  rw [printValue, printString] at hfuel ⊢
  rw [printString] at hparse
  obtain ⟨fuel, rfl⟩ := Nat.exists_eq_add_of_lt (Nat.lt_of_lt_of_le (Nat.succ_pos _) hfuel)
  rw [List.cons_append] at hparse ⊢
  rw [Nat.zero_add, parseValue_cons (by decide) (by decide) (by decide), if_pos rfl, hparse]
  rfl

theorem exists_fuel {text : Text} {fuel : ℕ} (hfuel : text.length ≤ fuel) (hne : text ≠ []) :
    ∃ less, fuel = less + 1 ∧ text.length ≤ less + 1 := by
  cases fuel with
  | zero => exact absurd (List.eq_nil_of_length_eq_zero (Nat.le_zero.mp hfuel)) hne
  | succ less => exact ⟨less, rfl, hfuel⟩

theorem reads_null : Reads .null := by
  intro depth fuel rest hfuel hrest
  rw [printValue] at hfuel ⊢
  obtain ⟨less, rfl, -⟩ := exists_fuel hfuel (List.cons_ne_nil _ _)
  simp [parseValue.eq_def]

theorem reads_false : Reads .false := by
  intro depth fuel rest hfuel hrest
  rw [printValue] at hfuel ⊢
  obtain ⟨less, rfl, -⟩ := exists_fuel hfuel (List.cons_ne_nil _ _)
  simp [parseValue.eq_def]

theorem reads_true : Reads .true := by
  intro depth fuel rest hfuel hrest
  rw [printValue] at hfuel ⊢
  obtain ⟨less, rfl, -⟩ := exists_fuel hfuel (List.cons_ne_nil _ _)
  simp [parseValue.eq_def]

/-! ## Arrays and objects -/

theorem parseItems_of_skip {fuel : ℕ} {text other : Text} (h : skip text = skip other) :
    parseItems fuel text = parseItems fuel other := by
  cases fuel with
  | zero => simp [parseItems]
  | succ fuel => rw [parseItems, parseItems, h]

theorem parseMembers_of_skip {fuel : ℕ} {text other : Text} (h : skip text = skip other) :
    parseMembers fuel text = parseMembers fuel other := by
  cases fuel with
  | zero => simp [parseMembers]
  | succ fuel => rw [parseMembers, parseMembers, h]

theorem skip_skip {text rest : Text} (h : skip text = some rest) : skip rest = skip text := by
  induction text with
  | nil => cases h
  | cons c text ih =>
      rw [skip] at h ⊢
      split_ifs at h ⊢ with hc
      · exact ih h
      · cases h
        rw [skip, if_neg hc]

theorem skip_printString (text rest : Text) :
    skip (printString text ++ rest) = some (printString text ++ rest) := by
  rw [printString, List.cons_append, skip_of_lt (by decide)]

theorem skip_printValue (value : Value) (depth : ℕ) (rest : Text) :
    skip (printValue value depth ++ rest) = some (printValue value depth ++ rest) := by
  obtain ⟨c, tail, hprint, hc, -⟩ := exists_printValue value depth
  rw [hprint, List.cons_append, skip_of_lt hc]

/-- The loop of `parse_array` reads what the loop of `print_array` writes. -/
theorem parseItems_printItems {items : List Value} (hne : items ≠ [])
    (hitems : ∀ item ∈ items, Reads item) (depth : ℕ) {fuel : ℕ}
    (hfuel : (printItems items depth).length ≤ fuel) (rest : Text) :
    parseItems (fuel + 1) (printItems items depth ++ 93 :: rest) = some (items, rest) := by
  induction items generalizing fuel with
  | nil => exact absurd rfl hne
  | cons value items ih =>
      rw [printItems] at hfuel ⊢
      rw [parseItems, List.append_assoc, skip_printValue, Option.bind_some]
      rw [List.length_append] at hfuel
      cases items with
      | nil =>
          have hread := hitems value List.mem_cons_self depth fuel (93 :: rest) (by omega)
            (by simp [Follows])
          simp only [List.isEmpty_nil, if_true, printItems, List.nil_append]
          rw [hread, Option.bind_some, skip_of_lt (by decide), Option.bind_some]
          rfl
      | cons next items =>
          simp only [List.isEmpty_cons, Bool.false_eq_true, if_false, List.cons_append,
            List.nil_append, List.length_cons] at hfuel ⊢
          obtain ⟨less, rfl⟩ : ∃ less, fuel = less + 1 := ⟨fuel - 1, by omega⟩
          have hread := hitems value List.mem_cons_self depth (less + 1)
            (44 :: 32 :: (printItems (next :: items) depth ++ 93 :: rest)) (by omega)
            (by simp [Follows])
          have hnext := ih (List.cons_ne_nil _ _)
            (fun item hitem ↦ hitems item (List.mem_cons_of_mem _ hitem)) (show _ ≤ less by omega)
          rw [hread, Option.bind_some, skip_of_lt (by decide), Option.bind_some]
          simp only [parseItems_of_skip (skip_space _), hnext]
          rfl

/-- The loop of `parse_object` reads what the loop of `print_object` writes. -/
theorem parseMembers_printMembers {members : List (CString × Value)} (hne : members ≠ [])
    (hnames : ∀ member ∈ members, PrintableText member.1)
    (hvalues : ∀ member ∈ members, Reads member.2) (depth outer : ℕ) {fuel : ℕ}
    (hfuel : (printMembers members depth).length ≤ fuel) (rest : Text) :
    parseMembers (fuel + 1) (printMembers members depth ++ (tabs outer ++ 125 :: rest)) =
      some (members, rest) := by
  induction members generalizing fuel with
  | nil => exact absurd rfl hne
  | cons member members ih =>
      obtain ⟨name, value⟩ := member
      have hname := parseString_printString (hnames _ List.mem_cons_self)
      rw [printMembers] at hfuel ⊢
      simp only [List.length_append, List.length_cons] at hfuel
      simp only [List.append_assoc, List.cons_append]
      rw [parseMembers, skip_tabs]
      rw [skip_printString, Option.bind_some, hname, Option.bind_some, skip_of_lt (by decide),
        Option.bind_some]
      simp only [skip_tab, skip_printValue, Option.bind_some]
      cases members with
      | nil =>
          have hread := hvalues _ List.mem_cons_self depth fuel (10 :: (tabs outer ++ 125 :: rest))
            (by simp only; omega) (by simp [Follows])
          simp only [List.isEmpty_nil, if_true, printMembers, List.nil_append, List.cons_append]
          rw [hread, Option.bind_some, skip_newline, skip_tabs, skip_of_lt (by decide),
            Option.bind_some]
          rfl
      | cons next members =>
          simp only [List.isEmpty_cons, Bool.false_eq_true, if_false, List.cons_append,
            List.nil_append, List.length_cons] at hfuel ⊢
          obtain ⟨less, rfl⟩ : ∃ less, fuel = less + 1 := ⟨fuel - 1, by omega⟩
          have hread := hvalues _ List.mem_cons_self depth (less + 1)
            (44 :: 10 :: (printMembers (next :: members) depth ++ (tabs outer ++ 125 :: rest)))
            (by simp only; omega) (by simp [Follows])
          have hnext := ih (List.cons_ne_nil _ _)
            (fun member hmember ↦ hnames member (List.mem_cons_of_mem _ hmember))
            (fun member hmember ↦ hvalues member (List.mem_cons_of_mem _ hmember))
            (show _ ≤ less by omega)
          rw [hread, Option.bind_some, skip_of_lt (by decide), Option.bind_some]
          simp only [parseMembers_of_skip (skip_newline _), hnext]
          rfl

theorem reads_array {items : List Value} (hitems : ∀ item ∈ items, Reads item) :
    Reads (.array items) := by
  intro depth fuel rest hfuel hrest
  rw [printValue] at hfuel ⊢
  obtain ⟨less, rfl, hless⟩ := exists_fuel hfuel (List.cons_ne_nil _ _)
  rw [List.cons_append, parseValue_cons (by decide) (by decide) (by decide), if_neg (by decide),
    if_neg (by decide), if_pos rfl, List.append_assoc]
  cases items with
  | nil =>
      rw [printItems, List.nil_append, List.cons_append, skip_of_lt (by decide)]
      rfl
  | cons value items =>
      obtain ⟨c, tail, hprint, -, hne, -⟩ := exists_printValue value (depth + 1)
      have hskip : skip (printItems (value :: items) (depth + 1) ++ ([93] ++ rest)) =
          some (printItems (value :: items) (depth + 1) ++ 93 :: rest) := by
        rw [printItems, List.append_assoc, skip_printValue, ← List.append_assoc]
        rfl
      rw [List.length_cons, List.length_append, List.length_singleton] at hless
      obtain ⟨fuel, rfl⟩ : ∃ fuel, less = fuel + 1 := ⟨less - 1, by omega⟩
      rw [hskip, Option.bind_some, if_neg, parseItems_printItems (List.cons_ne_nil _ _) hitems _
        (by omega)]
      · rfl
      · rw [printItems, hprint]
        simpa using hne

theorem reads_object {members : List (CString × Value)}
    (hnames : ∀ member ∈ members, PrintableText member.1)
    (hvalues : ∀ member ∈ members, Reads member.2) : Reads (.object members) := by
  intro depth fuel rest hfuel hrest
  rw [printValue] at hfuel ⊢
  obtain ⟨less, rfl, hless⟩ := exists_fuel hfuel (List.cons_ne_nil _ _)
  simp only [List.length_cons, List.length_append, List.length_nil] at hless
  rw [List.cons_append, List.cons_append, parseValue_cons (by decide) (by decide) (by decide),
    if_neg (by decide), if_neg (by decide), if_neg (by decide), if_pos rfl, skip_newline]
  cases members with
  | nil =>
      rw [printMembers, List.nil_append, List.append_assoc, skip_tabs, List.cons_append,
        skip_of_lt (by decide)]
      rfl
  | cons member members =>
      obtain ⟨fuel, rfl⟩ : ∃ fuel, less = fuel + 1 := ⟨less - 1, by omega⟩
      have htext : printMembers (member :: members) (depth + 1) ++ (tabs depth ++ [125]) ++ rest =
          printMembers (member :: members) (depth + 1) ++ (tabs depth ++ 125 :: rest) := by
        simp
      have hskip : ∃ text, skip (printMembers (member :: members) (depth + 1) ++
          (tabs depth ++ 125 :: rest)) = some (34 :: text) := by
        rw [printMembers, List.append_assoc, skip_tabs, printString, List.append_assoc,
          List.cons_append, skip_of_lt (by decide)]
        exact ⟨_, rfl⟩
      obtain ⟨text, hskip⟩ := hskip
      rw [htext, hskip, Option.bind_some, if_neg (by simp), parseMembers_of_skip
        ((skip_skip hskip).trans rfl), parseMembers_printMembers (List.cons_ne_nil _ _) hnames
        hvalues _ _ (by omega)]
      rfl

theorem Printable.reads {value : Value} (h : Printable value) : Reads value := by
  induction h with
  | null => exact reads_null
  | false => exact reads_false
  | true => exact reads_true
  | number hlow hhigh => exact reads_number hlow hhigh
  | string htext => exact reads_string htext
  | array _ ih => exact reads_array ih
  | object hnames _ ih => exact reads_object hnames ih

/-- `cJSON_Parse` reads what `cJSON_Print` writes. -/
theorem parse_print {value : Value} (h : Printable value) {text : Text}
    (hprint : print value = some text) : parse text = some value := by
  have hskip := skip_printValue value 0 []
  have hread := h.reads 0 ((printValue value 0).length + 1) [] (Nat.le_succ _) (by simp [Follows])
  rw [List.append_nil] at hskip hread
  unfold print at hprint
  split_ifs at hprint
  obtain rfl := Option.some.inj hprint
  unfold parse
  rw [hskip, Option.bind_some, hread]
  rfl

/-- Names that are printed as they are. -/
def PlainName (text : Text) : Prop :=
  ∀ c ∈ text, 31 < c ∧ c ≠ 34 ∧ c ≠ 92

theorem PlainName.printableText {text : Text} (h : PlainName text) : PrintableText text := by
  intro c hc
  rw [printByte, if_pos (h c hc)]
  exact List.cons_ne_nil _ _

theorem PlainName.printString {text : Text} (h : PlainName text) :
    printString text = 34 :: (text ++ [34]) := by
  have hbytes : text.flatMap printByte = text := by
    induction text with
    | nil => rfl
    | cons c text ih =>
        rw [List.flatMap_cons, printByte, if_pos (h c List.mem_cons_self),
          ih fun d hd ↦ h d (List.mem_cons_of_mem c hd)]
        rfl
  rw [Json.printString, hbytes]

/-- The text of an object with one member, with a blank behind each token. -/
theorem parse_member {name : CString} (hname : PrintableText name) {value : Value}
    (hvalue : Printable value) :
    parse (123 :: 32 :: (printString name ++ 58 :: 32 :: (printValue value 0 ++ [32, 125]))) =
      some (.object [(name, value)]) := by
  obtain ⟨fuel, hfuel⟩ : ∃ fuel, (123 :: 32 :: (printString name.val ++
      58 :: 32 :: (printValue value 0 ++ [32, 125]))).length = fuel + 1 := ⟨_, rfl⟩
  have hread := hvalue.reads 0 fuel [32, 125]
    (by simp only [List.length_cons, List.length_append] at hfuel; omega) (by simp [Follows])
  have hmembers : parseMembers (fuel + 1)
      (printString name ++ 58 :: 32 :: (printValue value 0 ++ [32, 125])) =
        some ([(name, value)], []) := by
    rw [parseMembers, skip_printString, Option.bind_some, parseString_printString hname,
      Option.bind_some, skip_of_lt (by decide), Option.bind_some]
    simp only [skip_space, skip_printValue, Option.bind_some]
    rw [hread]
    rfl
  unfold parse
  rw [skip_of_lt (by decide), Option.bind_some, hfuel, parseValue_cons (by decide) (by decide)
    (by decide), if_neg (by decide), if_neg (by decide), if_neg (by decide), if_pos rfl, skip_space,
    skip_printString, Option.bind_some, if_neg, hmembers]
  · rfl
  · rw [printString]
    simp

theorem fails_of_scalar {value : Value} (h : value.Scalar) : fails value = false := by
  cases value <;> first | rfl | exact h.elim

theorem anyMemberFails_eq (members : List (CString × Value)) :
    anyMemberFails members = members.any fun member ↦ fails member.2 := by
  induction members with
  | nil => rfl
  | cons member members ih => rw [anyMemberFails, ih, List.any_cons]

theorem anyMemberFails_eq_false {members : List (CString × Value)}
    (h : ∀ member ∈ members, fails member.2 = false) : anyMemberFails members = false := by
  rw [anyMemberFails_eq, List.any_eq_false]
  intro member hmember
  rw [h member hmember]
  exact Bool.false_ne_true

/-- An object with members that can be printed is printed, between braces. -/
theorem exists_print_object {members : List (CString × Value)} (hne : members ≠ [])
    (h : ∀ member ∈ members, fails member.2 = false) :
    ∃ text, print (.object members) = some (123 :: (text ++ [125])) := by
  refine ⟨10 :: printMembers members 1, ?_⟩
  have hempty : members.isEmpty = false := List.isEmpty_eq_false_iff.mpr hne
  rw [print, fails, hempty, anyMemberFails_eq_false h, if_neg (by decide), printValue]
  rfl

/-! ## What printing loses -/

/-- The bytes of a text that are printed. -/
def keptText (text : Text) : Text :=
  text.filter fun c ↦ !(printByte c).isEmpty

def keptString (text : CString) : CString :=
  ⟨keptText text.val, fun hmem ↦ text.property (List.mem_of_mem_filter hmem)⟩

theorem printableText_keptText (text : Text) : PrintableText (keptText text) := by
  intro c hc
  simpa using (List.mem_filter.mp hc).2

theorem keptText_eq_self {text : Text} : keptText text = text ↔ PrintableText text := by
  unfold keptText PrintableText
  rw [List.filter_eq_self]
  simp

theorem keptString_eq_self {text : CString} (h : PrintableText text) : keptString text = text :=
  Subtype.ext (keptText_eq_self.mpr h)

theorem printString_keptText (text : Text) : printString (keptText text) = printString text := by
  have hbytes : (keptText text).flatMap printByte = text.flatMap printByte := by
    unfold keptText
    induction text with
    | nil => rfl
    | cons c text ih =>
        rw [List.filter_cons, List.flatMap_cons, ← ih]
        cases hc : printByte c <;> simp [hc]
  rw [printString, hbytes]
  rfl

/-- Null, a boolean, a 32-bit integer or a string. -/
def Value.Fits : Value → Prop
  | .number value => -2 ^ 31 ≤ value ∧ value < 2 ^ 31
  | .array _ | .object _ => False
  | _ => True

theorem Value.Fits.scalar {value : Value} (h : value.Fits) : value.Scalar := by
  cases value <;> trivial

/-- A scalar as it is read back. -/
def keptValue : Value → Value
  | .string text => .string (keptString text)
  | value => value

def keptMember (member : CString × Value) : CString × Value :=
  (keptString member.1, keptValue member.2)

theorem Value.Fits.printable_kept {value : Value} (h : value.Fits) :
    Printable (keptValue value) := by
  cases value with
  | null => exact .null
  | false => exact .false
  | true => exact .true
  | number value => exact .number h.1 h.2
  | string text => exact .string (printableText_keptText text)
  | array items => exact h.elim
  | object members => exact h.elim

theorem Value.Fits.keptValue_eq_self {value : Value} (h : Printable value) (hfits : value.Fits) :
    keptValue value = value := by
  cases h with
  | string htext => rw [keptValue, keptString_eq_self htext]
  | array _ => exact hfits.elim
  | object _ _ => exact hfits.elim
  | _ => rfl

theorem printValue_keptValue (value : Value) (depth : ℕ) :
    printValue (keptValue value) depth = printValue value depth := by
  cases value with
  | string text => rw [keptValue, printValue, printValue, keptString, printString_keptText]
  | _ => rfl

theorem fails_keptValue (value : Value) : fails (keptValue value) = fails value := by
  cases value <;> rfl

/-- Members that are printed alike make objects that are printed alike. -/
theorem print_object_map {f : CString × Value → CString × Value} {members : List (CString × Value)}
    (hname : ∀ member ∈ members, printString (f member).1 = printString member.1)
    (hvalue : ∀ member ∈ members, ∀ depth,
      printValue (f member).2 depth = printValue member.2 depth)
    (hfails : ∀ member ∈ members, fails (f member).2 = fails member.2) :
    print (.object (members.map f)) = print (.object members) := by
  have hmembers : ∀ depth, printMembers (members.map f) depth = printMembers members depth := by
    intro depth
    induction members with
    | nil => rfl
    | cons member members ih =>
        rw [List.map_cons, printMembers, printMembers, hname member List.mem_cons_self,
          hvalue member List.mem_cons_self, ih
            (fun m hm ↦ hname m (List.mem_cons_of_mem member hm))
            (fun m hm ↦ hvalue m (List.mem_cons_of_mem member hm))
            (fun m hm ↦ hfails m (List.mem_cons_of_mem member hm)), List.isEmpty_map]
  have hany : anyMemberFails (members.map f) = anyMemberFails members := by
    rw [anyMemberFails_eq, anyMemberFails_eq, List.any_map]
    rw [Bool.eq_iff_iff, List.any_eq_true, List.any_eq_true]
    constructor <;> rintro ⟨member, hmember, hfail⟩ <;> refine ⟨member, hmember, ?_⟩
    · rw [← hfails member hmember]
      exact hfail
    · rw [Function.comp_apply, hfails member hmember]
      exact hfail
  rw [print, print, fails, fails, hany, List.isEmpty_map, printValue, printValue, hmembers]

theorem print_keptMembers (members : List (CString × Value)) :
    print (.object (members.map keptMember)) = print (.object members) :=
  print_object_map (fun member _ ↦ printString_keptText member.1.val)
    (fun member _ ↦ printValue_keptValue member.2) fun member _ ↦ fails_keptValue member.2

theorem printable_keptMembers {members : List (CString × Value)}
    (h : ∀ member ∈ members, member.2.Fits) : Printable (.object (members.map keptMember)) := by
  apply Printable.object
  · intro member hmember
    obtain ⟨old, -, rfl⟩ := List.mem_map.mp hmember
    exact printableText_keptText old.1.val
  · intro member hmember
    obtain ⟨old, hold, rfl⟩ := List.mem_map.mp hmember
    exact (h old hold).printable_kept

end HavokMud.Json
