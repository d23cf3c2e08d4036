import HavokMud.BTree.Keys
import HavokMud.SixWords.Codes

/-!
# Reading six words

`opieetob` looks for six words in the first 64 characters of a text, in any case and with any
characters between them, and takes the digits 1, 0 and 5 inside a word for letters.  It returns 1
for a code with the right checksum and only then.
-/

namespace HavokMud.SixWords

open BTree Sequence

def isAlpha (c : UInt8) : Bool :=
  65 ≤ c ∧ c ≤ 90 ∨ 97 ≤ c ∧ c ≤ 122

/-- What the loop over a word makes of a character. -/
def standard (c : UInt8) : UInt8 :=
  let c := if 97 ≤ c ∧ c ≤ 122 then c - 32 else c
  let c := if c = 49 then 76 else c
  let c := if c = 48 then 79 else c
  if c = 53 then 83 else c

/-- The word at the beginning of a text, and what is left. -/
def readWord : List UInt8 → List UInt8 × List UInt8
  | [] => ([], [])
  | c :: input =>
      if isAlpha (standard c) then (standard c :: (readWord input).1, (readWord input).2)
      else ([], c :: input)

/-- The next word.  In front of it the digits are no letters. -/
def nextWord (input : List UInt8) : List UInt8 × List UInt8 :=
  readWord (input.dropWhile fun c ↦ !isAlpha c)

/-- The loop over the words, with the result that it returns at once for a bad one.  The text has
ended too early if it is not the last word. -/
def readLoop : ℕ → ℕ → (ℕ → UInt8) → List UInt8 → Option (Except ℤ (ℕ → UInt8))
  | 0, _, b, _ => some (.ok b)
  | turns + 1, p, b, input =>
      let word := (nextWord input).1
      let rest := (nextWord input).2
      if rest = [] ∧ turns ≠ 0 then some (.error (-1))
      else if 4 < word.length ∨ word.length < 1 then some (.error (-1))
      else do
        let v ← lookUp word
        if v < 0 then some (.error 0)
        else readLoop turns (p + 11) (insert b (.ofNat v.toNat) p 11) (rest.drop 1)

/-- `opieetob`: the result, and what is in `out` then. -/
def opieetob (stack out : ℕ → UInt8) : Option (List UInt8) → Option (ℤ × (ℕ → UInt8))
  | none => some (-1, out)
  | some e => do
      let input := e.take 64
      let b := fun i ↦ if i < 9 then 0 else stack i
      let read ← readLoop 6 0 b input
      match read with
      | .error rval => some (rval, fun i ↦ if i < 8 then 0 else out i)
      | .ok b =>
          if pairSum b % 4 ≠ (extract b 64 2).toNat then
            some (-2, fun i ↦ if i < 8 then 0 else out i)
          else some (1, fun i ↦ if i < 8 then b i else out i)

/-! ## The words of a text -/

/-- So many words, if the text has them. -/
def wordsOf : ℕ → List UInt8 → Option (List (List UInt8))
  | 0, _ => some []
  | n + 1, input =>
      let word := (nextWord input).1
      let rest := (nextWord input).2
      if rest = [] ∧ n ≠ 0 then none
      else if 4 < word.length ∨ word.length < 1 then none
      else (wordsOf n (rest.drop 1)).map (word :: ·)

/-- Words with blanks between them. -/
def phrase (words : List (List UInt8)) : List UInt8 :=
  [32].intercalate words

variable {input : List UInt8}

theorem zero_not_mem_readWord (input : List UInt8) : 0 ∉ (readWord input).1 := by
  induction input with
  | nil => exact List.not_mem_nil
  | cons c input ih =>
      rw [readWord]
      split_ifs with halpha
      · refine List.not_mem_cons_of_ne_of_not_mem ?_ ih
        intro hzero
        rw [← hzero] at halpha
        cases halpha
      · exact List.not_mem_nil

/-- The loop packs the numbers of the words, or stops at a bad one. -/
theorem readLoop_cases (turns p : ℕ) (b : ℕ → UInt8) (input : List UInt8) :
    (∃ vs : List ℕ, readLoop turns p b input = some (.ok (pack b p vs)) ∧ vs.length = turns ∧
      (∀ v ∈ vs, v < 2048) ∧ wordsOf turns input = some (vs.map wp)) ∨
    ∃ rval, readLoop turns p b input = some (.error rval) ∧ (rval = -1 ∨ rval = 0) ∧
      ∀ vs : List ℕ, (∀ v ∈ vs, v < 2048) → wordsOf turns input ≠ some (vs.map wp) := by
  induction turns generalizing p b input with
  | zero => exact .inl ⟨[], rfl, rfl, by simp, rfl⟩
  | succ turns ih =>
      rw [readLoop, wordsOf]
      by_cases hshort : (nextWord input).2 = [] ∧ turns ≠ 0
      · simp only [if_pos hshort]
        exact .inr ⟨-1, rfl, .inl rfl, fun _ _ h ↦ by cases h⟩
      by_cases hlength : 4 < (nextWord input).1.length ∨ (nextWord input).1.length < 1
      · simp only [if_neg hshort, if_pos hlength]
        exact .inr ⟨-1, rfl, .inl rfl, fun _ _ h ↦ by cases h⟩
      obtain ⟨v, hlookUp, hnumber⟩ := lookUp_isNumber (nextWord input).1 (by omega)
        (zero_not_mem_readWord _)
      simp only [if_neg hshort, if_neg hlength, hlookUp, Option.bind_eq_bind, Option.bind_some]
      rcases hnumber with ⟨i, rfl, hi, hwp⟩ | ⟨rfl, hnone⟩
      · rw [if_neg (by omega), Int.toNat_natCast]
        rcases ih (p + 11) (insert b (.ofNat i) p 11) ((nextWord input).2.drop 1) with
          ⟨vs, hloop, hcount, hvs, hwords⟩ | ⟨rval, hloop, hrval, hbad⟩
        · refine .inl ⟨i :: vs, hloop, by rw [List.length_cons, hcount], ?_, ?_⟩
          · exact List.forall_mem_cons.mpr ⟨hi, hvs⟩
          · rw [hwords, List.map_cons, hwp]
            rfl
        · refine .inr ⟨rval, hloop, hrval, ?_⟩
          intro vs hvs hwords
          obtain ⟨words, hrest, heq⟩ := Option.map_eq_some_iff.mp hwords
          cases vs with
          | nil => cases heq
          | cons v vs =>
              obtain ⟨-, rfl⟩ := List.cons.inj heq
              exact hbad vs (List.forall_mem_cons.mp hvs).2 hrest
      · rw [if_pos (by omega)]
        refine .inr ⟨0, rfl, .inr rfl, ?_⟩
        intro vs hvs hwords
        obtain ⟨words, -, heq⟩ := Option.map_eq_some_iff.mp hwords
        cases vs with
        | nil => cases heq
        | cons v vs => exact hnone v (List.forall_mem_cons.mp hvs).1 (List.cons.inj heq).1.symm

variable {stack out c : ℕ → UInt8} {e : List UInt8}

/-- Words are those of one list of numbers only. -/
theorem map_wp_injective {vs vs' : List ℕ} (hvs : ∀ v ∈ vs, v < 2048) (hvs' : ∀ v ∈ vs', v < 2048)
    (h : vs.map wp = vs'.map wp) : vs = vs' := by
  induction vs generalizing vs' with
  | nil => exact (List.map_eq_nil_iff.mp h.symm).symm
  | cons v vs ih =>
      obtain ⟨v', vs', rfl, hword, hwords⟩ := List.map_eq_cons_iff.mp h.symm
      obtain ⟨hv, hvs⟩ := List.forall_mem_cons.mp hvs
      obtain ⟨hv', hvs'⟩ := List.forall_mem_cons.mp hvs'
      rw [wp_injective hv' hv hword, ih hvs hvs' hwords.symm]

/-- The text has the words of a code. -/
def Spells (e : List UInt8) (c : ℕ → UInt8) : Prop :=
  wordsOf 6 (e.take 64) = some ((numbers c).map wp)

/-- A text spells the code of eight bytes only. -/
theorem Spells.unique {c' : ℕ → UInt8} (h : Spells e c) (h' : Spells e c') :
    ∀ i < 8, c i = c' i := by
  have hnumbers : numbers c = numbers c' := map_wp_injective (fun _ ↦ numbers_lt)
    (fun _ ↦ numbers_lt) (Option.some.inj (h.symm.trans h'))
  have hzero : ∀ i < 9, (fun _ : ℕ ↦ (0 : UInt8)) i = 0 := fun _ _ ↦ rfl
  intro i hi
  rw [← (pack_numbers hzero c).1 i hi, ← (pack_numbers hzero c').1 i hi, hnumbers]

/-- `opieetob` returns 1 if the text spells a code, whose bytes it stores, and otherwise -2, -1 or
0, with zeros in the place of the bytes. -/
theorem opieetob_cases (stack out : ℕ → UInt8) (e : List UInt8) :
    ∃ rval out', opieetob stack out (some e) = some (rval, out') ∧
      ((rval = 1 ∧ ∃ c, Spells e c ∧ ∀ i < 8, out' i = c i) ∨
        ((rval = 0 ∨ rval = -1 ∨ rval = -2) ∧ (∀ i < 8, out' i = 0) ∧ ∀ c, ¬ Spells e c)) := by
  have hb : ∀ i < 9, (fun i ↦ if i < 9 then 0 else stack i) i = 0 := fun i hi ↦ if_pos hi
  have hzeros : ∀ i < 8, (fun i ↦ if i < 8 then 0 else out i) i = 0 := fun i hi ↦ if_pos hi
  unfold opieetob
  rcases readLoop_cases 6 0 (fun i ↦ if i < 9 then 0 else stack i) (e.take 64) with
    ⟨vs, hloop, hlength, hvs, hwords⟩ | ⟨rval, hloop, hrval, hbad⟩
  · simp only [hloop, Option.bind_eq_bind, Option.bind_some]
    split_ifs with hcheck
    · refine ⟨-2, _, rfl, .inr ⟨.inr (.inr rfl), hzeros, ?_⟩⟩
      intro c hspells
      rw [map_wp_injective hvs (fun _ ↦ numbers_lt)
        (Option.some.inj (hwords.symm.trans hspells))] at hcheck
      exact hcheck (pack_numbers hb c).2
    · have hnumbers := eq_numbers_of_check hb hlength hvs (not_not.mp hcheck)
      refine ⟨1, _, rfl, .inl ⟨rfl, _, ?_, fun i hi ↦ if_pos hi⟩⟩
      rw [Spells, hwords, ← hnumbers]
  · simp only [hloop, Option.bind_eq_bind, Option.bind_some]
    refine ⟨rval, _, rfl, .inr ⟨?_, hzeros, fun c ↦ hbad (numbers c) fun _ ↦ numbers_lt⟩⟩
    rcases hrval with rfl | rfl
    · exact .inr (.inl rfl)
    · exact .inl rfl

/-! ## Codes as texts -/

/-- A code is the phrase of its words, whatever is on the stack. -/
theorem opiebtoe_eq (stack c : ℕ → UInt8) : opiebtoe stack c = phrase ((numbers c).map wp) := by
  have htake : ∀ start ≤ 55, (wp (extract (summed stack c) start 11).toNat).take 4 =
      wp (extract (summed (fun _ ↦ 0) c) start 11).toNat := by
    intro start hstart
    have hlt : (extract (summed (fun _ ↦ 0) c) start 11).toNat < 2048 :=
      extract_lt (by omega) (by omega)
    rw [extract_stack hstart]
    apply List.take_of_length_le
    rcases length_wp hlt with ⟨hlong, -⟩ | ⟨-, hshort, -⟩ <;> omega
  unfold opiebtoe
  simp only [htake, Nat.zero_le, Nat.reduceLeDiff]
  simp [phrase, numbers, List.range_succ, List.intercalate]

/-- Characters that make no difference to the reader. -/
def Alike (d d' : UInt8) : Prop :=
  standard d = standard d' ∧ isAlpha d = isAlpha d'

theorem readWord_alike {t : List UInt8} (h : List.Forall₂ Alike e t) :
    (readWord e).1 = (readWord t).1 ∧ List.Forall₂ Alike (readWord e).2 (readWord t).2 := by
  induction h with
  | nil => exact ⟨rfl, .nil⟩
  | cons hd h ih =>
      rw [readWord, readWord, hd.1]
      split_ifs with halpha
      · exact ⟨congrArg (List.cons _) ih.1, ih.2⟩
      · exact ⟨rfl, .cons hd h⟩

theorem dropWhile_alike {t : List UInt8} (h : List.Forall₂ Alike e t) :
    List.Forall₂ Alike (e.dropWhile fun d ↦ !isAlpha d) (t.dropWhile fun d ↦ !isAlpha d) := by
  induction h with
  | nil => exact .nil
  | cons hd h ih =>
      rw [List.dropWhile_cons, List.dropWhile_cons, hd.2]
      split_ifs with halpha
      · exact ih
      · exact .cons hd h

theorem wordsOf_alike {t : List UInt8} (n : ℕ) (h : List.Forall₂ Alike e t) :
    wordsOf n e = wordsOf n t := by
  induction n generalizing e t with
  | zero => rfl
  | succ n ih =>
      obtain ⟨hword, hrest⟩ := readWord_alike (dropWhile_alike h)
      have hnil : (nextWord e).2 = [] ↔ (nextWord t).2 = [] := by
        rw [← List.length_eq_zero_iff, ← List.length_eq_zero_iff]
        exact iff_of_eq (congrArg (· = 0) hrest.length_eq)
      have hword : (nextWord e).1 = (nextWord t).1 := hword
      have htail : wordsOf n ((nextWord e).2.drop 1) = wordsOf n ((nextWord t).2.drop 1) :=
        ih (List.forall₂_drop 1 hrest)
      simp only [wordsOf, hnil, hword, htail]

theorem standard_capital {d : UInt8} (h : 65 ≤ d) (h' : d ≤ 90) : standard d = d := by
  unfold standard
  grind

theorem standard_small {d : UInt8} (h : 97 ≤ d) (h' : d ≤ 122) : standard d = d - 32 := by
  unfold standard
  grind

theorem capital_of_isAlpha {d : UInt8} (h : isAlpha (standard d) = true) :
    65 ≤ standard d ∧ standard d ≤ 90 := by
  unfold isAlpha at h
  unfold standard at h ⊢
  grind

/-- The case of a capital letter makes no difference. -/
theorem alike_of_toLower {d d' : UInt8} (hd' : 65 ≤ d' ∧ d' ≤ 90 ∨ d' = 32)
    (h : toLower d = toLower d') : Alike d d' := by
  by_cases heq : d = d'
  · exact ⟨congrArg _ heq, congrArg _ heq⟩
  obtain ⟨hlow, hhigh, rfl⟩ : 65 ≤ d' ∧ d' ≤ 90 ∧ d = d' + 32 := by
    unfold toLower at h
    grind
  have hsmall : 97 ≤ d' + 32 ∧ d' + 32 ≤ 122 := by grind
  constructor
  · rw [standard_capital hlow hhigh, standard_small hsmall.1 hsmall.2]
    grind
  · unfold isAlpha
    grind

theorem alike_of_fold {t : List UInt8} (ht : ∀ d ∈ t, 65 ≤ d ∧ d ≤ 90 ∨ d = 32)
    (h : fold e = fold t) : List.Forall₂ Alike e t := by
  induction t generalizing e with
  | nil =>
      rw [List.map_eq_nil_iff.mp h]
      exact .nil
  | cons d' t ih =>
      obtain ⟨hd', ht⟩ := List.forall_mem_cons.mp ht
      obtain ⟨d, e, rfl, hd, he⟩ := List.map_eq_cons_iff.mp h
      exact .cons (alike_of_toLower hd' (UInt8.toNat_inj.mp hd)) (ih ht he)

/-! ## Phrases -/

/-- A word as the dictionary has them. -/
structure IsWord (word : List UInt8) : Prop where
  pos : 0 < word.length
  length : word.length ≤ 4
  capital : ∀ d ∈ word, 65 ≤ d ∧ d ≤ 90

theorem isWord_wp {i : ℕ} (hi : i < 2048) : IsWord (wp i) where
  pos := by rcases length_wp hi with ⟨hlong, -⟩ | ⟨hpos, -⟩ <;> omega
  length := by rcases length_wp hi with ⟨hlong, -⟩ | ⟨-, hshort, -⟩ <;> omega
  capital _ hd := letter_wp hi hd

/-- A word is read up to a blank or the end. -/
theorem nextWord_append {word rest : List UInt8} (hword : IsWord word)
    (hrest : ∀ d ∈ rest.head?, d = 32) : nextWord (word ++ rest) = (word, rest) := by
  have hread : readWord (word ++ rest) = (word, rest) := by
    have hcapital := hword.capital
    clear hword
    induction word with
    | nil =>
        cases rest with
        | nil => rfl
        | cons d rest =>
            obtain rfl : d = 32 := hrest d rfl
            rfl
    | cons d word ih =>
        obtain ⟨⟨hlow, hhigh⟩, hcapital⟩ := List.forall_mem_cons.mp hcapital
        have halpha : isAlpha d = true := decide_eq_true (.inl ⟨hlow, hhigh⟩)
        rw [List.cons_append, readWord, standard_capital hlow hhigh, if_pos halpha, ih hcapital]
  have hfirst : (word ++ rest).dropWhile (fun d ↦ !isAlpha d) = word ++ rest := by
    cases word with
    | nil => cases hword.pos
    | cons d word =>
        obtain ⟨hlow, hhigh⟩ := hword.capital d List.mem_cons_self
        have halpha : isAlpha d = true := decide_eq_true (.inl ⟨hlow, hhigh⟩)
        rw [List.cons_append, List.dropWhile_cons, halpha]
        rfl
  rw [nextWord, hfirst, hread]

theorem phrase_singleton (word : List UInt8) : phrase [word] = word := by
  simp [phrase, List.intercalate]

theorem phrase_cons (word word' : List UInt8) (words : List (List UInt8)) :
    phrase (word :: word' :: words) = word ++ 32 :: phrase (word' :: words) := by
  simp [phrase, List.intercalate]

/-- The words of a phrase are read back. -/
theorem wordsOf_phrase (words : List (List UInt8)) (hwords : ∀ word ∈ words, IsWord word) :
    wordsOf words.length (phrase words) = some words := by
  induction words with
  | nil => rfl
  | cons word words ih =>
      obtain ⟨hword, hwords⟩ := List.forall_mem_cons.mp hwords
      have hlength : ¬ (4 < word.length ∨ word.length < 1) := by
        have := hword.pos
        have := hword.length
        omega
      cases words with
      | nil =>
          have hnext : nextWord (phrase [word]) = (word, []) := by
            have happend : nextWord (word ++ []) = (word, []) := nextWord_append hword (by simp)
            rw [phrase_singleton]
            rwa [List.append_nil] at happend
          rw [List.length_singleton, wordsOf]
          simp only [hnext]
          rw [if_neg (by simp), if_neg hlength]
          rfl
      | cons word' words =>
          have hnext : nextWord (phrase (word :: word' :: words)) =
              (word, 32 :: phrase (word' :: words)) := by
            rw [phrase_cons]
            exact nextWord_append hword (by simp)
          rw [List.length_cons, wordsOf]
          simp only [hnext]
          rw [if_neg (by simp), if_neg hlength, List.drop_one, List.tail_cons, ih hwords]
          rfl

/-- What is read is words. -/
theorem isWord_of_wordsOf {n : ℕ} {words : List (List UInt8)} (h : wordsOf n e = some words) :
    words.length = n ∧ ∀ word ∈ words, IsWord word := by
  have hcapital : ∀ input : List UInt8, ∀ d ∈ (readWord input).1, 65 ≤ d ∧ d ≤ 90 := by
    intro input
    induction input with
    | nil => simp [readWord]
    | cons c input ih =>
        rw [readWord]
        split_ifs with halpha
        · exact List.forall_mem_cons.mpr ⟨capital_of_isAlpha halpha, ih⟩
        · simp
  induction n generalizing e words with
  | zero =>
      cases h
      simp
  | succ n ih =>
      rw [wordsOf] at h
      split_ifs at h with hshort hlength
      obtain ⟨words, hrest, rfl⟩ := Option.map_eq_some_iff.mp h
      obtain ⟨hcount, hwords⟩ := ih hrest
      refine ⟨congrArg (· + 1) hcount, List.forall_mem_cons.mpr ⟨⟨?_, ?_, hcapital _⟩, hwords⟩⟩
      · omega
      · omega

theorem isWord_numbers {word : List UInt8} (h : word ∈ (numbers c).map wp) : IsWord word := by
  obtain ⟨v, hv, rfl⟩ := List.mem_map.mp h
  exact isWord_wp (numbers_lt hv)

/-! ## Round trips -/

theorem length_phrase {words : List (List UInt8)} (hwords : ∀ word ∈ words, IsWord word) :
    (phrase words).length ≤ 5 * words.length := by
  induction words with
  | nil => rfl
  | cons word words ih =>
      obtain ⟨hword, hwords⟩ := List.forall_mem_cons.mp hwords
      have hlength := hword.length
      have ih := ih hwords
      cases words with
      | nil =>
          rw [phrase_singleton, List.length_singleton]
          omega
      | cons word' words =>
          rw [phrase_cons, List.length_append, List.length_cons, List.length_cons]
          omega

theorem capital_phrase {words : List (List UInt8)} (hwords : ∀ word ∈ words, IsWord word) :
    ∀ d ∈ phrase words, 65 ≤ d ∧ d ≤ 90 ∨ d = 32 := by
  induction words with
  | nil => simp [phrase, List.intercalate]
  | cons word words ih =>
      obtain ⟨hword, hwords⟩ := List.forall_mem_cons.mp hwords
      cases words with
      | nil =>
          rw [phrase_singleton]
          exact fun d hd ↦ .inl (hword.capital d hd)
      | cons word' words =>
          rw [phrase_cons]
          intro d hd
          rcases List.mem_append.mp hd with hd | hd
          · exact .inl (hword.capital d hd)
          · rcases List.mem_cons.mp hd with rfl | hd
            · exact .inr rfl
            · exact ih hwords d hd

/-- A text that differs from a code at most in the case of letters spells it. -/
theorem spells_of_fold (stack : ℕ → UInt8) (h : fold e = fold (opiebtoe stack c)) :
    Spells e c := by
  have hwords : ∀ word ∈ (numbers c).map wp, IsWord word := fun _ ↦ isWord_numbers
  have hcount : ((numbers c).map wp).length = 6 := by rw [List.length_map, length_numbers]
  rw [opiebtoe_eq] at h
  have hlength : e.length = (phrase ((numbers c).map wp)).length := by
    simpa [fold] using congrArg List.length h
  have hshort := length_phrase hwords
  rw [Spells, List.take_of_length_le (by omega), wordsOf_alike 6 (alike_of_fold
    (capital_phrase hwords) h)]
  have hread := wordsOf_phrase _ hwords
  rwa [hcount] at hread

/-- The code that a text spells is the one that is read. -/
theorem opieetob_of_spells (stack out : ℕ → UInt8) (h : Spells e c) :
    ∃ out', opieetob stack out (some e) = some (1, out') ∧ ∀ i < 8, out' i = c i := by
  obtain ⟨rval, out', hread, hcases⟩ := opieetob_cases stack out e
  rcases hcases with ⟨rfl, c', hspells', hbytes⟩ | ⟨-, -, hnot⟩
  · refine ⟨out', hread, ?_⟩
    intro i hi
    rw [hbytes i hi, hspells'.unique h i hi]
  · exact absurd h (hnot c)

/-- What `opiebtoe` writes is read back by `opieetob`, in any case of the letters. -/
theorem opieetob_opiebtoe (c stack stack' out : ℕ → UInt8) (e : List UInt8)
    (h : fold e = fold (opiebtoe stack c)) :
    ∃ out', opieetob stack' out (some e) = some (1, out') ∧ ∀ i < 8, out' i = c i :=
  opieetob_of_spells stack' out (spells_of_fold stack h)

/-- The code of zeros in small letters. -/
theorem opieetob_opiebtoe_zeros :
    fold [97, 32, 97, 32, 97, 32, 97, 32, 97, 32, 97] = fold (opiebtoe (fun _ ↦ 0) fun _ ↦ 0) ∧
      ∃ out', opieetob (fun _ ↦ 7) (fun _ ↦ 7)
          (some [97, 32, 97, 32, 97, 32, 97, 32, 97, 32, 97]) = some (1, out') ∧
        ∀ i < 8, out' i = 0 := by
  have h : fold [97, 32, 97, 32, 97, 32, 97, 32, 97, 32, 97] =
      fold (opiebtoe (fun _ ↦ 0) fun _ ↦ 0) := by
    decide +kernel
  exact ⟨h, opieetob_opiebtoe _ _ _ _ _ h⟩

/-- `opieetob` returns 1 for the texts whose words are a code and only for them; it stores the bytes
that `opiebtoe` writes as these words. -/
theorem opieetob_spec (stack stack' out : ℕ → UInt8) (e : List UInt8) :
    ∃ rval out', opieetob stack out (some e) = some (rval, out') ∧
      ((rval = 1 ∧ (wordsOf 6 (e.take 64)).map phrase = some (opiebtoe stack' out')) ∨
        ((rval = 0 ∨ rval = -1 ∨ rval = -2) ∧ (∀ i < 8, out' i = 0) ∧
          ∀ c, (wordsOf 6 (e.take 64)).map phrase ≠ some (opiebtoe stack' c))) := by
  obtain ⟨rval, out', hread, hcases⟩ := opieetob_cases stack out e
  refine ⟨rval, out', hread, ?_⟩
  rcases hcases with ⟨hrval, c, hspells, hbytes⟩ | ⟨hrval, hzeros, hnot⟩
  · refine .inl ⟨hrval, ?_⟩
    rw [hspells, opiebtoe_eq, numbers_congr hbytes]
    rfl
  · refine .inr ⟨hrval, hzeros, ?_⟩
    intro c hphrase
    obtain ⟨words, hwords, heq⟩ := Option.map_eq_some_iff.mp hphrase
    obtain ⟨hcount, hisWord⟩ := isWord_of_wordsOf hwords
    have hcount' : ((numbers c).map wp).length = 6 := by rw [List.length_map, length_numbers]
    have hread := wordsOf_phrase _ hisWord
    have hread' := wordsOf_phrase _ fun _ hmem ↦ isWord_numbers (c := c) hmem
    rw [hcount, heq, opiebtoe_eq] at hread
    rw [hcount'] at hread'
    rw [Option.some.inj (hread.symm.trans hread')] at hwords
    exact hnot c hwords

end HavokMud.SixWords
