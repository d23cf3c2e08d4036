import HavokMud.Colors.Expansion
import Mathlib.Algebra.GroupWithZero.Nat

/-!
# What colour expansion writes

Every turn of the loop of `ParseAnsiColors` expands one part of the text.  It stays inside the text
and the tables unless a code is cut off, and inside the buffer unless the expansion is too long.
-/

namespace HavokMud.Colors

open Sequence

/-- Before a turn `rest` is left of the text, and `out` is written. -/
structure At (v : Variables) (rest out : Text) : Prop where
  read : v.txt.drop v.i = rest ++ [0]
  written : stringOf v.buf = some out
  index : v.j = out.length
  ansibuf : v.ansibuf.length = 255

/-- What a turn leaves. -/
structure After (v v' : Variables) (rest out : Text) (code : Bool) : Prop where
  reached : At v' rest out
  size : v'.buf.length = v.buf.length
  found : v'.found = 0 ↔ v.found = 0 ∧ code = false

variable {v v' : Variables} {rest out text : Text} {c : UInt8} {usingAnsi : Bool} {turns : ℕ}

/-! ## Turns -/

namespace At

theorem get (h : At v rest out) (n : ℕ) : v.txt[v.i + n]? = (rest ++ [0])[n]? := by
  rw [← h.read, List.getElem?_drop]

theorem length_lt (h : At v rest out) : out.length < v.buf.length :=
  length_lt_of_stringOf h.written

theorem isCode_eq (h : At v (c :: text) out) :
    isCode v.txt v.i = some (decide (marker (c :: text) ≠ 0)) := by
  have h₀ : v.txt[v.i]? = some c := h.get 0
  have h₁ := h.get 1
  have h₂ := h.get 2
  unfold isCode
  rw [h₀, Option.bind_eq_bind, Option.bind_some, h₁, h₂]
  by_cases hdollar : c = 36
  · subst hdollar
    have hdollar : toUpper 36 ≠ 67 := by decide
    have hnul : toUpper 0 ≠ 67 := by decide
    cases text with
    | nil => rfl
    | cons d text =>
        by_cases hletter : toUpper d = 67
        · simp [marker, hletter]
        · by_cases hsecond : d = 36
          · subst hsecond
            cases text with
            | nil => simp [marker, hdollar, hnul]
            | cons e text => simp [marker, hdollar]
          · simp [marker, hletter, hsecond]
  · have hmarker : marker (c :: text) = 0 := by
      rcases marker_cases (c :: text) with h | ⟨d, tail, heq, -⟩ | ⟨d, tail, heq, -⟩
      · exact h
      · exact absurd (List.cons.inj heq).1 hdollar
      · exact absurd (List.cons.inj heq).1 hdollar
    rw [if_pos hdollar, hmarker]
    rfl

/-- A character is copied, if the buffer has room for it. -/
theorem plainTurn_eq_some (h : At v (c :: text) out) (hc : c ≠ 0)
    (hfits : out.length + 1 < v.buf.length) :
    ∃ v', plainTurn v c = some v' ∧ After v v' text (out ++ [c]) false := by
  obtain ⟨buf, hpush, hwritten, hlength⟩ := push_eq_some h.written hc hfits
  refine ⟨{ v with buf := buf, j := v.j + 1, i := v.i + 1 }, ?_, ⟨?_, hwritten, ?_, h.ansibuf⟩,
    hlength, by simp⟩
  · rw [plainTurn, h.index, hpush]
    rfl
  · rw [← List.drop_drop, h.read]
    rfl
  · simp [h.index]

theorem plainTurn_eq_none (h : At v (c :: text) out) (hlong : v.buf.length ≤ out.length + 1) :
    plainTurn v c = none := by
  rw [plainTurn, h.index, push_eq_none hlong]
  rfl

/-- The mark is passed over. -/
theorem read_code (h : At v rest out) (hmarker : marker rest ≠ 0) :
    ∃ second, v.txt[v.i + 1]? = some second ∧
      (if second = 36 then 3 else 2) = marker rest := by
  have h₁ := h.get 1
  rcases marker_cases rest with hzero | ⟨d, tail, rfl, hletter, htwo⟩ | ⟨d, tail, rfl, -, hthree⟩
  · exact absurd hzero hmarker
  · have hd : d ≠ 36 := by
      rintro rfl
      exact absurd hletter (by decide)
    exact ⟨d, h₁, by rw [if_neg hd, htwo]⟩
  · exact ⟨36, h₁, by rw [if_pos rfl, hthree]⟩

/-- A turn at a code, with what `expandCode` makes of the variables. -/
theorem codeTurn_eq (h : At v rest out) (hmarker : marker rest ≠ 0) :
    codeTurn usingAnsi v =
      (expandCode usingAnsi { v with i := v.i + marker rest }).map fun v ↦
        { v with i := v.i + 4 } := by
  obtain ⟨second, hsecond, hskip⟩ := h.read_code hmarker
  rw [codeTurn, hsecond, Option.bind_eq_bind, Option.bind_some, hskip]
  change (expandCode usingAnsi { v with i := v.i + marker rest }).bind _ = _
  cases expandCode usingAnsi { v with i := v.i + marker rest } <;> rfl

theorem read_four (h : At v rest out) (hfour : ((rest.drop (marker rest)).take 4).length = 4) :
    v.txt.drop (v.i + marker rest + 4) = rest.drop (marker rest + 4) ++ [0] := by
  have hlength : marker rest + 4 ≤ rest.length := by
    rw [List.length_take, List.length_drop] at hfour
    omega
  rw [Nat.add_assoc, ← List.drop_drop, h.read, List.drop_append_of_le_length hlength]

/-- Without ANSI a code is left out. -/
theorem codeTurn_false (h : At v rest out) (hmarker : marker rest ≠ 0)
    (hfour : ((rest.drop (marker rest)).take 4).length = 4) :
    ∃ v', codeTurn false v = some v' ∧ After v v' (rest.drop (marker rest + 4)) out false := by
  rw [h.codeTurn_eq hmarker]
  exact ⟨_, rfl, ⟨h.read_four hfour, h.written, h.index, h.ansibuf⟩, rfl, by simp⟩

/-- With ANSI a code is expanded, if the buffer has room for its sequence. -/
theorem codeTurn_true (h : At v rest out) (hnul : 0 ∉ rest) (hmarker : marker rest ≠ 0)
    {four : Text} (htake : (rest.drop (marker rest)).take 4 = four) (hfour : four.length = 4) :
    (out.length + (sequenceOf four).length < v.buf.length →
      ∃ v', codeTurn true v = some v' ∧
        After v v' (rest.drop (marker rest + 4)) (out ++ sequenceOf four) true) ∧
    (v.buf.length ≤ out.length + (sequenceOf four).length → codeTurn true v = none) := by
  match four, hfour with
  | [mod, bg, kind, last], _ =>
    have hcode : v.txt.drop (v.i + marker rest) =
        mod :: bg :: kind :: last :: (rest.drop (marker rest + 4) ++ [0]) := by
      have hdrop := h.read_four (by rw [htake]; rfl)
      have hlength : marker rest ≤ rest.length := marker_le rest
      rw [← List.take_append_drop 4 (v.txt.drop (v.i + marker rest)), List.drop_drop, hdrop,
        ← List.drop_drop, h.read, List.drop_append_of_le_length hlength,
        List.take_append_of_le_length, htake]
      · rfl
      · have hfour := congrArg List.length htake
        simp only [List.length_take, List.length_cons, List.length_nil] at hfour
        omega
    have hlast : last ≠ 0 := by
      rintro rfl
      have hmem : 0 ∈ (rest.drop (marker rest)).take 4 := by simp [htake]
      exact hnul (List.mem_of_mem_drop (List.mem_of_mem_take hmem))
    have hroom : 18 < v.ansibuf.length := by
      rw [h.ansibuf]
      omega
    obtain ⟨ansibuf, txt, hparse, hstring, hsize, hrest, -⟩ := ansiParse_eq_some hcode hlast hroom
    have hsequence := (sized_ansiSequence mod bg kind hlast).2
    have hexpand : expandCode true { v with i := v.i + marker rest } =
        (strcat v.buf (ansiSequence mod bg kind last)).map fun buf ↦
          ⟨txt, buf, ansibuf, v.i + marker rest, v.j + (ansiSequence mod bg kind last).length,
            v.found + 1⟩ := by
      rw [expandCode, if_pos rfl]
      simp only [hparse, hstring, Option.bind_eq_bind, Option.bind_some]
      cases strcat v.buf (ansiSequence mod bg kind last) <;> rfl
    rw [h.codeTurn_eq hmarker, hexpand]
    constructor
    · intro hfits
      obtain ⟨buf, hbuf, hwritten, hlength⟩ := strcat_eq_some h.written hsequence hfits
      rw [hbuf]
      refine ⟨_, rfl, ⟨hrest, hwritten, ?_, hsize.trans h.ansibuf⟩, hlength, by simp⟩
      simp [h.index, sequenceOf]
    · intro hlong
      have hnone : strcat v.buf (ansiSequence mod bg kind last) = none :=
        strcat_eq_none h.written hlong
      rw [hnone]
      rfl

/-- A code that is cut off is expanded from behind the text. -/
theorem codeTurn_cut (h : At v rest out) (hmarker : marker rest ≠ 0)
    (hcut : ((rest.drop (marker rest)).take 4).length ≠ 4) :
    codeTurn true v = none ∧
      ∃ v', codeTurn false v = some v' ∧ v'.txt[v'.i]? = none := by
  have hle := marker_le rest
  have hlength : (rest.drop (marker rest)).length < 4 := by
    rw [List.length_take] at hcut
    omega
  constructor
  · have hcode : v.txt.drop (v.i + marker rest) = rest.drop (marker rest) ++ [0] := by
      rw [← List.drop_drop, h.read, List.drop_append_of_le_length hle]
    rw [h.codeTurn_eq hmarker, expandCode, if_pos rfl]
    simp only [ansiParse_eq_none hcode hlength]
    rfl
  · rw [h.codeTurn_eq hmarker]
    refine ⟨_, rfl, List.getElem?_eq_none_iff.mpr ?_⟩
    have hread := congrArg List.length h.read
    rw [List.length_drop] at hlength hread
    rw [List.length_append, List.length_singleton] at hread
    simp only
    omega

/-- A turn expands the first part of what is left, if the buffer has room for it. -/
theorem turn_spec (usingAnsi : Bool) (h : At v (c :: text) out) (hnul : 0 ∉ c :: text) {p : Part}
    {ps : List Part} (hparts : parts 0 (c :: text) = p :: ps)
    (hfour : ∀ mark four, p = .code mark four → four.length = 4) :
    ∃ rest, ps = parts 0 rest ∧ rest <:+ text ∧
      (out.length + (p.expand usingAnsi).length < v.buf.length →
        ∃ v', turn usingAnsi v c = some v' ∧
          After v v' rest (out ++ p.expand usingAnsi) (usingAnsi && p.isCode)) ∧
      (v.buf.length ≤ out.length + (p.expand usingAnsi).length → turn usingAnsi v c = none) := by
  rw [turn, h.isCode_eq, Option.bind_eq_bind, Option.bind_some]
  by_cases hmarker : marker (c :: text) = 0
  · rw [parts_plain hmarker] at hparts
    obtain ⟨rfl, rfl⟩ := List.cons.inj hparts
    have hc : c ≠ 0 := fun heq ↦ hnul (heq ▸ List.mem_cons_self)
    refine ⟨text, rfl, List.suffix_rfl, ?_, ?_⟩
    · simpa [hmarker, Part.expand, Part.isCode] using h.plainTurn_eq_some hc
    · simpa [hmarker, Part.expand] using h.plainTurn_eq_none
  · rw [parts_code hmarker] at hparts
    obtain ⟨rfl, rfl⟩ := List.cons.inj hparts
    have hlength := hfour _ _ rfl
    refine ⟨_, rfl, List.drop_suffix (marker (c :: text) + 3) text, ?_⟩
    rw [decide_eq_true hmarker, if_pos rfl]
    cases usingAnsi
    · have hout : out ++ Part.expand false (.code ((c :: text).take (marker (c :: text)))
          (((c :: text).drop (marker (c :: text))).take 4)) = out := List.append_nil out
      refine ⟨fun _ ↦ ?_, fun hlong ↦ absurd h.length_lt (Nat.not_lt.mpr hlong)⟩
      rw [hout]
      exact h.codeTurn_false hmarker hlength
    · exact h.codeTurn_true hnul hmarker rfl hlength

end At

/-! ## The loop -/

/-- What is written of the parts of a text. -/
def written (usingAnsi : Bool) (text : Text) : Text :=
  (parts 0 text).flatMap (Part.expand usingAnsi)

theorem parseLoop_nil (h : At v [] out) (turns : ℕ) :
    parseLoop usingAnsi (turns + 1) v = some v := by
  have hget : v.txt[v.i]? = some 0 := h.get 0
  rw [parseLoop, hget, Option.bind_eq_bind, Option.bind_some, if_pos (.inl rfl)]

theorem parseLoop_cons (h : At v (c :: text) out) (hc : c ≠ 0) (hout : out.length < maxStringLength)
    (turns : ℕ) : parseLoop usingAnsi (turns + 1) v =
      (turn usingAnsi v c).bind (parseLoop usingAnsi turns) := by
  have hget : v.txt[v.i]? = some c := h.get 0
  rw [parseLoop, hget, Option.bind_eq_bind, Option.bind_some, if_neg]
  · rfl
  · rw [h.index]
    exact not_or.mpr ⟨hc, Nat.not_le.mpr hout⟩

theorem complete_cons {p : Part} {ps : List Part} (hparts : parts 0 text = p :: ps)
    (hrest : ps = parts 0 rest) :
    Complete text ↔ (∀ mark four, p = .code mark four → four.length = 4) ∧ Complete rest := by
  unfold Complete
  rw [hparts, ← hrest]
  simp only [List.mem_cons]
  constructor
  · intro hall
    exact ⟨fun mark four heq ↦ hall mark four (.inl heq.symm),
      fun mark four hmem ↦ hall mark four (.inr hmem)⟩
  · rintro ⟨hfirst, hrest⟩ mark four (heq | hmem)
    · exact hfirst mark four heq.symm
    · exact hrest mark four hmem

theorem exists_parts (c : UInt8) (text : Text) : ∃ p ps, parts 0 (c :: text) = p :: ps := by
  rw [parts]
  split_ifs
  · exact ⟨_, _, rfl⟩
  · exact ⟨_, _, rfl⟩

theorem written_cons (usingAnsi : Bool) {p : Part} (hparts : parts 0 text = p :: parts 0 rest) :
    written usingAnsi text = p.expand usingAnsi ++ written usingAnsi rest := by
  rw [written, hparts, List.flatMap_cons]
  rfl

/-- The loop expands all parts of a text whose codes are complete, if the expansion is short
enough. -/
theorem parseLoop_eq_some (h : At v rest out) (hnul : 0 ∉ rest) (hcomplete : Complete rest)
    (hmax : maxStringLength ≤ v.buf.length)
    (hfits : out.length + (written usingAnsi rest).length < maxStringLength)
    (hturns : rest.length < turns) :
    ∃ v', parseLoop usingAnsi turns v = some v' ∧
      After v v' [] (out ++ written usingAnsi rest) (usingAnsi && hasCode rest) := by
  induction turns generalizing v rest out with
  | zero => exact absurd hturns (Nat.not_lt_zero _)
  | succ turns ih =>
      cases rest with
      | nil =>
          refine ⟨v, parseLoop_nil h turns, ?_, rfl, ?_⟩
          · simpa [written, parts] using h
          · simp [hasCode, parts]
      | cons c text =>
          have hc : c ≠ 0 := fun heq ↦ hnul (heq ▸ List.mem_cons_self)
          obtain ⟨p, ps, hparts⟩ := exists_parts c text
          have hfour : ∀ mark four, p = .code mark four → four.length = 4 :=
            fun mark four heq ↦ hcomplete mark four (by rw [hparts, heq]; exact List.mem_cons_self)
          obtain ⟨rest, rfl, hsuffix, hturn, -⟩ := h.turn_spec usingAnsi hnul hparts hfour
          have hwritten := written_cons usingAnsi hparts
          rw [hwritten, List.length_append] at hfits
          obtain ⟨v₁, hrun₁, hafter₁⟩ := hturn (by omega)
          obtain ⟨v', hrun, hafter⟩ := ih hafter₁.reached
            (fun hmem ↦ hnul (List.mem_cons_of_mem c (hsuffix.mem hmem)))
            ((complete_cons hparts rfl).mp hcomplete).2 (by rw [hafter₁.size]; exact hmax)
            (by rw [List.length_append]; omega)
            (by have hle := hsuffix.length_le; rw [List.length_cons] at hturns; omega)
          refine ⟨v', ?_, ?_, hafter.size.trans hafter₁.size, ?_⟩
          · rw [parseLoop_cons h hc (by omega), hrun₁]
            exact hrun
          · rw [hwritten, ← List.append_assoc]
            exact hafter.reached
          · have hcode : hasCode (c :: text) = (p.isCode || hasCode rest) := by
              rw [hasCode, hparts, List.any_cons, hasCode]
            rw [hafter.found, hafter₁.found, hcode]
            cases usingAnsi <;> simp [and_assoc]

/-- The loop runs out of the text or of the buffer otherwise. -/
theorem parseLoop_eq_none (h : At v rest out) (hnul : 0 ∉ rest)
    (hmax : v.buf.length = maxStringLength)
    (hbad : ¬ (Complete rest ∧ out.length + (written usingAnsi rest).length < maxStringLength)) :
    parseLoop usingAnsi turns v = none := by
  induction turns generalizing v rest out with
  | zero => rfl
  | succ turns ih =>
      have hout : out.length < maxStringLength := hmax ▸ h.length_lt
      cases rest with
      | nil => exact absurd ⟨by simp [Complete, parts], by simpa [written, parts]⟩ hbad
      | cons c text =>
          have hc : c ≠ 0 := fun heq ↦ hnul (heq ▸ List.mem_cons_self)
          obtain ⟨p, ps, hparts⟩ := exists_parts c text
          rw [parseLoop_cons h hc hout]
          by_cases hfour : ∀ mark four, p = .code mark four → four.length = 4
          · obtain ⟨rest, rfl, hsuffix, hturn, hlong⟩ := h.turn_spec usingAnsi hnul hparts hfour
            by_cases hfits : out.length + (p.expand usingAnsi).length < v.buf.length
            · obtain ⟨v₁, hrun₁, hafter₁⟩ := hturn hfits
              rw [hrun₁, Option.bind_some]
              refine ih hafter₁.reached
                (fun hmem ↦ hnul (List.mem_cons_of_mem c (hsuffix.mem hmem)))
                (hafter₁.size.trans hmax) ?_
              rintro ⟨hcomplete, hfits'⟩
              refine hbad ⟨(complete_cons hparts rfl).mpr ⟨hfour, hcomplete⟩, ?_⟩
              rw [written_cons usingAnsi hparts, List.length_append]
              rw [List.length_append] at hfits'
              omega
            · rw [hlong (Nat.not_lt.mp hfits)]
              rfl
          · -- the first code is cut off
            have hcut : marker (c :: text) ≠ 0 ∧
                (((c :: text).drop (marker (c :: text))).take 4).length ≠ 4 := by
              by_cases hmarker : marker (c :: text) = 0
              · rw [parts_plain hmarker] at hparts
                obtain ⟨rfl, -⟩ := List.cons.inj hparts
                exact absurd (by simp) hfour
              · rw [parts_code hmarker] at hparts
                obtain ⟨rfl, -⟩ := List.cons.inj hparts
                exact ⟨hmarker, fun hlength ↦ hfour (by rintro mark four ⟨⟩; exact hlength)⟩
            obtain ⟨hnone, v₁, hrun₁, hbehind⟩ := h.codeTurn_cut hcut.1 hcut.2
            rw [turn, h.isCode_eq, Option.bind_eq_bind, Option.bind_some, decide_eq_true hcut.1,
              if_pos rfl]
            cases usingAnsi
            · rw [hrun₁, Option.bind_some]
              cases turns with
              | zero => rfl
              | succ turns => rw [parseLoop, hbehind]; rfl
            · rw [hnone]
              rfl

/-! ## The whole function -/

section Whole

variable {buf ansibuf : Text}

theorem resetColor_zero (hfound : v.found = 0) : resetColor v = some v.buf := by
  rw [resetColor, if_pos hfound]

/-- The colour is reset, if the buffer has room for the sequence. -/
theorem resetColor_found (h : At v rest out) (hfound : v.found ≠ 0) :
    (out.length + resetSequence.length < v.buf.length →
      ∃ buf', resetColor v = some buf' ∧ stringOf buf' = some (out ++ resetSequence)) ∧
    (v.buf.length ≤ out.length + resetSequence.length → resetColor v = none) := by
  have hcode : resetCode.drop 0 = 48 :: 48 :: 48 :: 55 :: [0] := rfl
  have hroom : 18 < v.ansibuf.length := by
    rw [h.ansibuf]
    omega
  obtain ⟨ansibuf, txt, hparse, hstring, -⟩ := ansiParse_eq_some hcode (by decide) hroom
  have hreset : resetColor v = strcat v.buf resetSequence := by
    rw [resetColor, if_neg hfound]
    simp only [hparse, hstring, Option.bind_eq_bind, Option.bind_some]
    rfl
  have hnul : 0 ∉ resetSequence := (sized_ansiSequence 48 48 48 (by decide)).2
  rw [hreset]
  constructor
  · intro hfits
    obtain ⟨buf', hbuf', hwritten, -⟩ := strcat_eq_some h.written hnul hfits
    exact ⟨buf', hbuf', hwritten⟩
  · exact strcat_eq_none h.written

/-- The loop starts with an empty buffer. -/
theorem parseAnsiColors_start (usingAnsi : Bool) (text : Text) (hbuf : buf ≠ [])
    (hansibuf : ansibuf.length = 255) :
    ∃ v, At v text [] ∧ v.buf.length = buf.length ∧ v.found = 0 ∧
      parseAnsiColors usingAnsi (text ++ [0]) buf ansibuf =
        (parseLoop usingAnsi ((text ++ [0]).length + 1) v).bind fun v ↦
          (resetColor v).bind fun buf ↦ (strlen buf).bind fun len ↦ some (len, buf, v.txt) := by
  obtain ⟨buf₀, hstore, hstring, hlength⟩ := store_nul hbuf
  refine ⟨⟨text ++ [0], buf₀, ansibuf, 0, 0, 0⟩, ⟨rfl, hstring, rfl, hansibuf⟩, hlength, rfl, ?_⟩
  rw [parseAnsiColors, hstore]
  rfl

theorem expansion_eq (usingAnsi : Bool) (text : Text) :
    expansion usingAnsi text =
      written usingAnsi text ++ if usingAnsi && hasCode text then resetSequence else [] := by
  cases usingAnsi
  · exact (List.append_nil _).symm
  · rfl

/-- What `ParseAnsiColors` writes. -/
theorem parseAnsiColors_eq_some (usingAnsi : Bool) (hnul : 0 ∉ text) (hcomplete : Complete text)
    (hbuf : maxStringLength ≤ buf.length) (hansibuf : ansibuf.length = 255)
    (hfits : (expansion usingAnsi text).length < maxStringLength) :
    ∃ buf' txt', parseAnsiColors usingAnsi (text ++ [0]) buf ansibuf =
        some ((expansion usingAnsi text).length, buf', txt') ∧
      stringOf buf' = some (expansion usingAnsi text) := by
  have hne : buf ≠ [] := List.ne_nil_of_length_pos (by omega)
  obtain ⟨v, hat, hlength, hfound, hrun⟩ := parseAnsiColors_start usingAnsi text hne hansibuf
  rw [expansion_eq, List.length_append] at hfits
  have hmax : maxStringLength ≤ v.buf.length := hlength ▸ hbuf
  have hloopFits : ([] : Text).length + (written usingAnsi text).length < maxStringLength := by
    rw [List.length_nil]
    omega
  have hturns : text.length < (text ++ [0]).length + 1 := by
    rw [List.length_append]
    omega
  obtain ⟨v', hloop, hafter⟩ := parseLoop_eq_some hat hnul hcomplete hmax hloopFits hturns
  rw [List.nil_append] at hafter
  have hsize := hafter.size
  obtain ⟨buf', hreset, hstring⟩ : ∃ buf', resetColor v' = some buf' ∧
      stringOf buf' = some (expansion usingAnsi text) := by
    rw [expansion_eq]
    cases hcode : usingAnsi && hasCode text with
    | false =>
        have hzero := hafter.found.mpr ⟨hfound, hcode⟩
        refine ⟨v'.buf, resetColor_zero hzero, ?_⟩
        rw [if_neg Bool.false_ne_true, List.append_nil]
        exact hafter.reached.written
    | true =>
        have hne : v'.found ≠ 0 := fun hzero ↦ by
          have hfalse := (hafter.found.mp hzero).2
          rw [hcode] at hfalse
          cases hfalse
        rw [hcode, if_pos rfl] at hfits
        rw [if_pos rfl]
        exact (resetColor_found hafter.reached hne).1 (by omega)
  refine ⟨buf', v'.txt, ?_, hstring⟩
  rw [hrun, hloop, Option.bind_some, hreset, Option.bind_some, strlen_of_stringOf hstring]
  rfl

theorem parseAnsiColors_eq_none (hnul : 0 ∉ text) (hbuf : buf.length = maxStringLength)
    (hansibuf : ansibuf.length = 255)
    (hbad : ¬ (Complete text ∧ (expansion usingAnsi text).length < maxStringLength)) :
    parseAnsiColors usingAnsi (text ++ [0]) buf ansibuf = none := by
  have hne : buf ≠ [] := List.ne_nil_of_length_pos (by rw [hbuf]; decide)
  obtain ⟨v, hat, hlength, hfound, hrun⟩ := parseAnsiColors_start usingAnsi text hne hansibuf
  have hmax : v.buf.length = maxStringLength := hlength.trans hbuf
  rw [hrun]
  by_cases hloop : Complete text ∧
      ([] : Text).length + (written usingAnsi text).length < maxStringLength
  · -- the loop ends, but the sequence at the end is too long
    obtain ⟨hcomplete, hloopFits⟩ := hloop
    have hturns : text.length < (text ++ [0]).length + 1 := by
      rw [List.length_append]
      omega
    obtain ⟨v', hloop, hafter⟩ := parseLoop_eq_some hat hnul hcomplete (Nat.le_of_eq hmax.symm)
      hloopFits hturns
    rw [List.nil_append] at hafter
    have hsize := hafter.size
    have hlong : maxStringLength ≤ (expansion usingAnsi text).length :=
      Nat.not_lt.mp fun hfits ↦ hbad ⟨hcomplete, hfits⟩
    rw [expansion_eq, List.length_append] at hlong
    rw [List.length_nil] at hloopFits
    cases hcode : usingAnsi && hasCode text with
    | false =>
        rw [hcode, if_neg Bool.false_ne_true, List.length_nil] at hlong
        omega
    | true =>
        have hne : v'.found ≠ 0 := fun hzero ↦ by
          have hfalse := (hafter.found.mp hzero).2
          rw [hcode] at hfalse
          cases hfalse
        rw [hcode, if_pos rfl] at hlong
        rw [hloop, Option.bind_some, (resetColor_found hafter.reached hne).2 (by omega)]
        rfl
  · rw [parseLoop_eq_none hat hnul hmax hloop]
    rfl

/-- What is expanded without ANSI is no longer than the text. -/
theorem length_visible_le (text : Text) : (visible text).length ≤ text.length := by
  calc (visible text).length
      ≤ ((parts 0 text).flatMap Part.source).length := by
        unfold visible
        induction parts 0 text with
        | nil => exact Nat.le_refl 0
        | cons p ps ih =>
            simp only [List.flatMap_cons, List.length_append]
            cases p with
            | plain c => exact Nat.add_le_add (Nat.le_refl 1) ih
            | code mark four => exact Nat.add_le_add (Nat.zero_le _) ih
    _ = text.length := by rw [source_parts]

/-- The bytes that a part takes with ANSI. -/
def Part.cost : Part → ℕ
  | .code _ [_, _, kind, last] => if isDim kind last then 16 else 18
  | _ => 1

/-- The bytes that a text takes with ANSI: one for a character, 16 for the code of a dim colour and
18 for another, and 16 to reset the colour after all codes. -/
def cost (text : Text) : ℕ :=
  ((parts 0 text).map Part.cost).sum + if hasCode text then 16 else 0

theorem nul_not_mem_four (hnul : 0 ∉ text) {mark four : Text} (h : .code mark four ∈ parts 0 text) :
    0 ∉ four := by
  intro hmem
  rw [← source_parts text] at hnul
  exact hnul (List.mem_flatMap.mpr ⟨_, h, List.mem_append_right mark hmem⟩)

theorem length_expansion (hnul : 0 ∉ text) (hcomplete : Complete text) :
    (expansion true text).length = cost text := by
  have hpart : ∀ p ∈ parts 0 text, (p.expand true).length = p.cost := by
    intro p hp
    cases p with
    | plain c => rfl
    | code mark four =>
        have hfour := hcomplete mark four hp
        have hnul' := nul_not_mem_four hnul hp
        match four, hfour, hnul' with
        | [mod, bg, kind, last], _, hnul' =>
          have hlast : last ≠ 0 := by
            rintro rfl
            exact hnul' (by simp)
          exact (sized_ansiSequence mod bg kind hlast).1
  have hreset : resetSequence.length = 16 := (sized_ansiSequence 48 48 48 (by decide)).1
  rw [expansion_eq, List.length_append, written, List.length_flatMap, List.map_congr_left hpart,
    cost, Bool.true_and]
  split_ifs
  · rw [hreset]
  · rfl

end Whole

/-! ## The results -/

/-- `ParseAnsiColors` leaves out the codes of a text, or replaces each by the sequence that
`ansi_parse` makes of its four characters, with one more sequence at the end if there was any. -/
theorem parseAnsiColors_expansion {text buf ansibuf : Text} (hnul : 0 ∉ text)
    (hcomplete : Complete text) (hbuf : maxStringLength ≤ buf.length)
    (hansibuf : ansibuf.length = 255) :
    ((visible text).length < maxStringLength →
      ∃ buf' txt', parseAnsiColors false (text ++ [0]) buf ansibuf =
          some ((visible text).length, buf', txt') ∧ stringOf buf' = some (visible text)) ∧
    ((colored text ++ if hasCode text then resetSequence else []).length < maxStringLength →
      ∃ buf' txt', parseAnsiColors true (text ++ [0]) buf ansibuf =
          some ((colored text ++ if hasCode text then resetSequence else []).length, buf', txt') ∧
        stringOf buf' = some (colored text ++ if hasCode text then resetSequence else [])) ∧
    (∀ mark four, .code mark four ∈ parts 0 text →
      ∃ buf' txt', ansiParse (four ++ [0]) 0 ansibuf =
          some ((sequenceOf four).length, buf', txt') ∧
        stringOf buf' = some (sequenceOf four)) := by
  refine ⟨parseAnsiColors_eq_some false hnul hcomplete hbuf hansibuf,
    parseAnsiColors_eq_some true hnul hcomplete hbuf hansibuf, fun mark four hpart ↦ ?_⟩
  have hnul' := nul_not_mem_four hnul hpart
  match four, hcomplete mark four hpart, hnul' with
  | [mod, bg, kind, last], _, hnul' =>
    have hlast : last ≠ 0 := by
      rintro rfl
      exact hnul' (by simp)
    have hcode : ([mod, bg, kind, last] ++ [0]).drop 0 = mod :: bg :: kind :: last :: [0] := rfl
    have hroom : 18 < ansibuf.length := by
      rw [hansibuf]
      omega
    obtain ⟨buf', txt', hparse, hstring, -⟩ := ansiParse_eq_some hcode hlast hroom
    exact ⟨buf', txt', hparse, hstring⟩

/-- `"$c0001a"`, a red `a`. -/
def redText : Text :=
  [36, 99, 48, 48, 48, 49, 97]

theorem complete_redText : Complete redText := by
  intro mark four hmem
  have hparts : parts 0 redText = [.code [36, 99] [48, 48, 48, 49], .plain 97] := by decide
  rw [hparts] at hmem
  simp only [List.mem_cons, Part.code.injEq, reduceCtorEq, List.not_mem_nil, or_false] at hmem
  rw [hmem.2]
  rfl

/-- An `a` is left of `"$c0001a"` without ANSI. -/
theorem parseAnsiColors_redText : ∃ buf' txt',
    parseAnsiColors false (redText ++ [0]) (List.replicate maxStringLength 0)
      (List.replicate 255 0) = some (1, buf', txt') ∧ stringOf buf' = some [97] := by
  have hbuf : maxStringLength ≤ (List.replicate maxStringLength (0 : UInt8)).length :=
    Nat.le_of_eq List.length_replicate.symm
  have hansibuf : (List.replicate 255 (0 : UInt8)).length = 255 := List.length_replicate
  exact (parseAnsiColors_expansion (by decide) complete_redText hbuf hansibuf).1 (by decide)

/-- `ParseAnsiColors` stays inside the text, the tables and the buffer exactly if every code has its
four characters and, with ANSI, the text takes less than `MAX_STRING_LENGTH` bytes. -/
theorem parseAnsiColors_bounded_iff {text buf ansibuf : Text} (hnul : 0 ∉ text)
    (hlength : text.length < maxStringLength) (hbuf : buf.length = maxStringLength)
    (hansibuf : ansibuf.length = 255) (usingAnsi : Bool) :
    (parseAnsiColors usingAnsi (text ++ [0]) buf ansibuf).isSome ↔
      Complete text ∧ (usingAnsi = true → cost text < maxStringLength) := by
  have hshort : Complete text → ((expansion usingAnsi text).length < maxStringLength ↔
      (usingAnsi = true → cost text < maxStringLength)) := by
    intro hcomplete
    cases usingAnsi
    · exact iff_of_true (lt_of_le_of_lt (length_visible_le text) hlength) (by simp)
    · rw [length_expansion hnul hcomplete]
      simp
  constructor
  · intro hsome
    by_contra hbad
    have hnone := parseAnsiColors_eq_none hnul hbuf hansibuf fun h ↦
      hbad ⟨h.1, (hshort h.1).mp h.2⟩
    rw [hnone] at hsome
    cases hsome
  · rintro ⟨hcomplete, hcost⟩
    obtain ⟨buf', txt', hrun, -⟩ := parseAnsiColors_eq_some usingAnsi hnul hcomplete
      (Nat.le_of_eq hbuf.symm) hansibuf ((hshort hcomplete).mpr hcost)
    rw [hrun]
    rfl

/-- All is well with `"$c0001a"`. -/
theorem bounded_redText :
    (parseAnsiColors true (redText ++ [0]) (List.replicate maxStringLength 0)
      (List.replicate 255 0)).isSome :=
  (parseAnsiColors_bounded_iff (by decide) (by decide) List.length_replicate List.length_replicate
    true).mpr ⟨complete_redText, fun _ ↦ by decide⟩

/-- `"$c"` is read beyond its NUL, with ANSI and without. -/
theorem not_bounded_cut :
    parseAnsiColors false ([36, 99] ++ [0]) (List.replicate maxStringLength 0)
        (List.replicate 255 0) = none ∧
      parseAnsiColors true ([36, 99] ++ [0]) (List.replicate maxStringLength 0)
        (List.replicate 255 0) = none := by
  have hcut : ∀ usingAnsi,
      ¬ (Complete [36, 99] ∧ (expansion usingAnsi [36, 99]).length < maxStringLength) := by
    rintro usingAnsi ⟨hcomplete, -⟩
    exact absurd (hcomplete [36, 99] [] (by decide)) (by decide)
  exact ⟨parseAnsiColors_eq_none (by decide) List.length_replicate List.length_replicate
    (hcut false), parseAnsiColors_eq_none (by decide) List.length_replicate List.length_replicate
    (hcut true)⟩

end HavokMud.Colors
