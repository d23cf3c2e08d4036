import HavokMud.Sequence.Buffers
import Mathlib.Data.Int.Basic

/-!
# Colour codes

`ansi_parse` expands the four characters of a colour code, a modifier, a background and a foreground
of two characters, to an ANSI sequence.  A letter for a bright colour makes it rewrite the code.
-/

namespace HavokMud.Colors

open Sequence

abbrev Text :=
  List UInt8

/-! ## The sequences -/

/-- `"\033[Nm"`. -/
def modifier (n : UInt8) : Text :=
  [27, 91, 48 + n, 109]

/-- `"\033[0;4Nm"`. -/
def background (n : UInt8) : Text :=
  [27, 91, 48, 59, 52, 48 + n, 109]

/-- `"\033[3Nm"`. -/
def foreground (n : UInt8) : Text :=
  [27, 91, 51, 48 + n, 109]

/-- `"\033[1;3Nm"`. -/
def brightForeground (n : UInt8) : Text :=
  [27, 91, 49, 59, 51, 48 + n, 109]

def modNormal : Text := modifier 0
def modBold : Text := modifier 1
def modFaint : Text := modifier 2
def modUnderline : Text := modifier 4
def modBlink : Text := modifier 5
def modReverse : Text := modifier 7

def bkBlack : Text := background 0
def bkRed : Text := background 1
def bkGreen : Text := background 2
def bkBrown : Text := background 3
def bkBlue : Text := background 4
def bkMagenta : Text := background 5
def bkCyan : Text := background 6
def bkLtGray : Text := background 7

def fgBlack : Text := foreground 0
def fgRed : Text := foreground 1
def fgGreen : Text := foreground 2
def fgBrown : Text := foreground 3
def fgBlue : Text := foreground 4
def fgMagenta : Text := foreground 5
def fgCyan : Text := foreground 6
def fgLtGray : Text := foreground 7
def fgDkGray : Text := brightForeground 0
def fgLtRed : Text := brightForeground 1
def fgLtGreen : Text := brightForeground 2
def fgYellow : Text := brightForeground 3
def fgLtBlue : Text := brightForeground 4
def fgLtMagenta : Text := brightForeground 5
def fgLtCyan : Text := brightForeground 6
def fgWhite : Text := brightForeground 7

/-! ## The tables -/

/-- `ansi_mod`. -/
def ansiMod : List Text :=
  [modNormal, modBold, modFaint, modNormal, modUnderline, modBlink, modReverse]

/-- `ansi_bg`. -/
def ansiBg : List Text :=
  [bkBlack, bkRed, bkGreen, bkBrown, bkBlue, bkMagenta, bkCyan, bkLtGray]

/-- `ansi_fg_nohighlight`. -/
def ansiFgNohighlight : List Text :=
  [fgBlack, fgRed, fgGreen, fgBrown, fgBlue, fgMagenta, fgCyan, fgLtGray, fgDkGray, fgLtRed]

/-- `ansi_fg_highlight`. -/
def ansiFgHighlight : List Text :=
  [fgLtGreen, fgYellow, fgLtBlue, fgLtMagenta, fgLtCyan, fgWhite]

/-- `"GYBPCW"`. -/
def ansiHighlight : Text :=
  [71, 89, 66, 80, 67, 87]

/-- `"XrgybpcwxR"`. -/
def ansiNohighlight : Text :=
  [88, 114, 103, 121, 98, 112, 99, 119, 120, 82]

/-- The entry of a table, if there is one. -/
def entry (table : List Text) (index : ℤ) : Option Text :=
  if index < 0 then none else table[index.toNat]?

/-! ## `ansi_parse` -/

/-- `(int)(c) - '0'`. -/
def digit (c : UInt8) : ℤ :=
  c.toInt8.toInt - 48

/-- The index, or another one for an index out of range. -/
def bounded (index last other : ℤ) : ℤ :=
  if index < 0 ∨ last < index then other else index

/-- Where a letter stands in the table, or else the digit. -/
def colorIndex (letters : Text) (c : UInt8) (last other : ℤ) : ℤ :=
  match strchr letters c with
  | some loc => loc
  | none => bounded (digit c) last other

/-- A letter for a bright colour is noted in the third character. -/
def markHighlight (txt : Text) (code : ℕ) (last : UInt8) : Option Text :=
  if (strchr ansiHighlight last).isSome then store txt (code + 2) 49 else some txt

/-- The entry that the third and the fourth character choose. -/
def fgEntry (kind last : UInt8) : Option Text :=
  if kind = 48 then entry ansiFgNohighlight (colorIndex ansiNohighlight last 9 8)
  else if kind = 49 then entry ansiFgHighlight (colorIndex ansiHighlight last 5 0)
  else some fgLtRed

/-- `ansi_parse` of the code at an index, with the length it returns, the buffer and the text.  No
caller passes NULL. -/
def ansiParse (txt : Text) (code : ℕ) (buf : Text) : Option (ℕ × Text × Text) := do
  let buf ← store buf 0 0
  let mod ← txt[code]?
  let buf ← strcat buf (← entry ansiMod (bounded (digit mod) 6 0))
  let bg ← txt[code + 1]?
  let buf ← strcat buf (← entry ansiBg (bounded (digit bg) 7 0))
  let last ← txt[code + 3]?
  let txt ← markHighlight txt code last
  let kind ← txt[code + 2]?
  let buf ← strcat buf (← fgEntry kind last)
  let len ← strlen buf
  some (len, buf, txt)

/-! ## What it yields -/

def modOf (mod : UInt8) : Text :=
  (entry ansiMod (bounded (digit mod) 6 0)).getD []

def bgOf (bg : UInt8) : Text :=
  (entry ansiBg (bounded (digit bg) 7 0)).getD []

/-- The colour, from the third and the fourth character. -/
def fgOf (kind last : UInt8) : Text :=
  if (strchr ansiHighlight last).isSome ∨ kind = 49 then
    (entry ansiFgHighlight (colorIndex ansiHighlight last 5 0)).getD []
  else if kind = 48 then
    (entry ansiFgNohighlight (colorIndex ansiNohighlight last 9 8)).getD []
  else fgLtRed

/-- The ANSI sequence of a code. -/
def ansiSequence (mod bg kind last : UInt8) : Text :=
  modOf mod ++ bgOf bg ++ fgOf kind last

/-- A code for one of the eight dim colours. -/
def isDim (kind last : UInt8) : Bool :=
  kind = 48 ∧ (last ∈ ansiNohighlight.take 8 ∨ 48 ≤ last ∧ last ≤ 55)

/-! ## The tables are long enough -/

section Tables

variable {table : List Text} {letters : Text} {index last other : ℤ} {c : UInt8}

theorem entry_mem (hindex : 0 ≤ index) (hlt : index < table.length) :
    ∃ text ∈ table, entry table index = some text := by
  have hnat : index.toNat < table.length := by omega
  refine ⟨table[index.toNat], List.getElem_mem hnat, ?_⟩
  rw [entry, if_neg (Int.not_lt.mpr hindex), List.getElem?_eq_getElem hnat]

/-- All entries of a table have a property if the index is in range. -/
theorem entry_getD {p : Text → Prop} (htable : ∀ text ∈ table, p text) (hindex : 0 ≤ index)
    (hlt : index < table.length) :
    entry table index = some ((entry table index).getD []) ∧ p ((entry table index).getD []) := by
  obtain ⟨text, hmem, htext⟩ := entry_mem hindex hlt
  rw [htext]
  exact ⟨rfl, htable text hmem⟩

theorem bounded_range (index : ℤ) (hother : 0 ≤ other) (hle : other ≤ last) :
    0 ≤ bounded index last other ∧ bounded index last other ≤ last := by
  unfold bounded
  split_ifs <;> omega

theorem strchr_lt (hc : c ≠ 0) {loc : ℕ} (hloc : strchr letters c = some loc) :
    loc < letters.length := by
  obtain ⟨hlt, hget, -⟩ := List.idxOf?_eq_some_iff.mp hloc
  rw [List.length_append, List.length_singleton] at hlt
  by_contra hge
  have heq : loc = letters.length := by omega
  subst heq
  simp [Ne.symm hc] at hget

theorem colorIndex_range (hc : c ≠ 0) (hlast : (letters.length : ℤ) = last + 1)
    (hother : 0 ≤ other) (hle : other ≤ last) :
    0 ≤ colorIndex letters c last other ∧ colorIndex letters c last other ≤ last := by
  unfold colorIndex
  cases hloc : strchr letters c with
  | none => exact bounded_range _ hother hle
  | some loc =>
      have hlt := strchr_lt hc hloc
      simp only
      omega

end Tables

/-! ## What `ansi_parse` writes -/

section Sequences

variable {mod bg kind last : UInt8} {buf txt : Text} {code : ℕ}

/-- A text of a length, without NUL. -/
def Sized (n : ℕ) (text : Text) : Prop :=
  text.length = n ∧ 0 ∉ text

instance (n : ℕ) (text : Text) : Decidable (Sized n text) :=
  inferInstanceAs (Decidable (_ ∧ _))

theorem modOf_spec (mod : UInt8) :
    entry ansiMod (bounded (digit mod) 6 0) = some (modOf mod) ∧ Sized 4 (modOf mod) := by
  have htable : ∀ text ∈ ansiMod, Sized 4 text := by decide
  have hlength : (ansiMod.length : ℤ) = 7 := rfl
  obtain ⟨hlo, hhi⟩ := bounded_range (digit mod) (Int.le_refl 0) (by omega : (0 : ℤ) ≤ 6)
  exact entry_getD htable hlo (by omega)

theorem bgOf_spec (bg : UInt8) :
    entry ansiBg (bounded (digit bg) 7 0) = some (bgOf bg) ∧ Sized 7 (bgOf bg) := by
  have htable : ∀ text ∈ ansiBg, Sized 7 text := by decide
  have hlength : (ansiBg.length : ℤ) = 8 := rfl
  obtain ⟨hlo, hhi⟩ := bounded_range (digit bg) (Int.le_refl 0) (by omega : (0 : ℤ) ≤ 7)
  exact entry_getD htable hlo (by omega)

theorem highlight_spec (hlast : last ≠ 0) :
    entry ansiFgHighlight (colorIndex ansiHighlight last 5 0) =
        some ((entry ansiFgHighlight (colorIndex ansiHighlight last 5 0)).getD []) ∧
      Sized 7 ((entry ansiFgHighlight (colorIndex ansiHighlight last 5 0)).getD []) := by
  have htable : ∀ text ∈ ansiFgHighlight, Sized 7 text := by decide
  have hlength : (ansiFgHighlight.length : ℤ) = 6 := rfl
  have hletters : (ansiHighlight.length : ℤ) = 5 + 1 := rfl
  obtain ⟨hlo, hhi⟩ := colorIndex_range hlast hletters (Int.le_refl 0) (by omega)
  exact entry_getD htable hlo (by omega)

theorem digit_eq (c : UInt8) : digit c = (c.toNat : ℤ).bmod 256 - 48 := by
  change c.toBitVec.toInt - 48 = _
  rw [BitVec.toInt_eq_toNat_bmod]
  rfl

/-- The colours of a digit. -/
theorem digit_range_iff (c : UInt8) : 0 ≤ digit c ∧ digit c ≤ 7 ↔ 48 ≤ c ∧ c ≤ 55 := by
  have hlt : c.toNat < 256 := c.toNat_lt
  rw [digit_eq, UInt8.le_iff_toNat_le, UInt8.le_iff_toNat_le, Int.bmod_def]
  simp only [UInt8.reduceToNat]
  omega

/-- The dim colours stand in front of the two bright ones of their table. -/
theorem colorIndex_lt_iff (hlast : last ≠ 0) :
    colorIndex ansiNohighlight last 9 8 < 8 ↔ isDim 48 last = true := by
  unfold colorIndex
  cases hloc : strchr ansiNohighlight last with
  | some loc =>
      have htable : ∀ loc : Fin 10, (loc : ℤ) < 8 ↔ isDim 48 ansiNohighlight[loc] = true := by
        decide
      have hlt : loc < 10 := strchr_lt hlast hloc
      obtain ⟨_, hget, -⟩ := List.idxOf?_eq_some_iff.mp hloc
      have hlast : ansiNohighlight[loc] = last := (List.getElem_append_left hlt).symm.trans hget
      rw [← hlast]
      exact htable ⟨loc, hlt⟩
  | none =>
      have hnot : last ∉ ansiNohighlight.take 8 := by
        intro hmem
        rw [strchr, List.idxOf?_eq_none_iff] at hloc
        exact hloc (List.mem_append_left _ (List.mem_of_mem_take hmem))
      have hdim : isDim 48 last = true ↔ 48 ≤ last ∧ last ≤ 55 := by
        simp [isDim, hnot]
      rw [hdim, ← digit_range_iff]
      dsimp only
      unfold bounded
      split_ifs <;> omega

theorem nohighlight_spec (hlast : last ≠ 0) :
    entry ansiFgNohighlight (colorIndex ansiNohighlight last 9 8) =
        some ((entry ansiFgNohighlight (colorIndex ansiNohighlight last 9 8)).getD []) ∧
      Sized (if isDim 48 last then 5 else 7)
        ((entry ansiFgNohighlight (colorIndex ansiNohighlight last 9 8)).getD []) := by
  have htable : ∀ loc : Fin 10,
      Sized (if (loc : ℤ) < 8 then 5 else 7) ansiFgNohighlight[loc] := by decide
  have hletters : (ansiNohighlight.length : ℤ) = 9 + 1 := rfl
  obtain ⟨hlo, hhi⟩ := colorIndex_range hlast hletters (by omega : (0 : ℤ) ≤ 8) (by omega)
  simp only [← colorIndex_lt_iff hlast]
  obtain ⟨loc, hloc⟩ := Int.eq_ofNat_of_zero_le hlo
  rw [hloc] at hhi ⊢
  have hlt : loc < 10 := by omega
  have hentry : entry ansiFgNohighlight loc = some ansiFgNohighlight[loc] :=
    List.getElem?_eq_getElem hlt
  rw [hentry]
  exact ⟨rfl, htable ⟨loc, hlt⟩⟩

theorem not_isDim_of_highlight (h : (strchr ansiHighlight last).isSome) :
    isDim kind last = false := by
  have hletters : ∀ c ∈ ansiHighlight ++ [0], isDim 48 c = false := by decide +kernel
  obtain ⟨loc, hloc⟩ := Option.isSome_iff_exists.mp h
  obtain ⟨hlt, hget, -⟩ := List.idxOf?_eq_some_iff.mp hloc
  have hdim := hletters last (hget ▸ List.getElem_mem hlt)
  by_cases hkind : kind = 48
  · rw [hkind]
    exact hdim
  · simp [isDim, hkind]

/-- The colour that is chosen from the tables, with the third character as it was rewritten. -/
theorem fgOf_spec (kind : UInt8) (hlast : last ≠ 0) {kind' : UInt8}
    (hkind' : kind' = if (strchr ansiHighlight last).isSome then 49 else kind) :
    fgEntry kind' last = some (fgOf kind last) ∧
      Sized (if isDim kind last then 5 else 7) (fgOf kind last) := by
  unfold fgOf fgEntry
  by_cases hbright : (strchr ansiHighlight last).isSome ∨ kind = 49
  · have hdim : isDim kind last = false := by
      rcases hbright with hletter | rfl
      · exact not_isDim_of_highlight hletter
      · rfl
    have hkind : kind' = 49 := by
      rcases hbright with hletter | rfl
      · rw [hkind', if_pos hletter]
      · rw [hkind', ite_self]
    rw [if_pos hbright, hkind, hdim]
    exact highlight_spec hlast
  · obtain ⟨hletter, hkind⟩ := not_or.mp hbright
    rw [if_neg hletter] at hkind'
    subst hkind'
    rw [if_neg hbright, if_neg hkind]
    by_cases hdark : kind' = 48
    · rw [if_pos hdark, if_pos hdark, hdark]
      exact nohighlight_spec hlast
    · rw [if_neg hdark, if_neg hdark]
      exact ⟨rfl, by simp [isDim, hdark]; decide⟩

theorem sized_ansiSequence (mod bg kind : UInt8) (hlast : last ≠ 0) :
    Sized (if isDim kind last then 16 else 18) (ansiSequence mod bg kind last) := by
  obtain ⟨hmod, hmod'⟩ := (modOf_spec mod).2
  obtain ⟨hbg, hbg'⟩ := (bgOf_spec bg).2
  obtain ⟨hfg, hfg'⟩ := (fgOf_spec kind hlast rfl).2
  refine ⟨?_, ?_⟩
  · rw [ansiSequence, List.length_append, List.length_append, hmod, hbg, hfg]
    split_ifs <;> rfl
  · simp [ansiSequence, hmod', hbg', hfg']

/-- A code of four characters is expanded; what stands behind it is not touched. -/
theorem ansiParse_eq_some {rest : Text} (hcode : txt.drop code = mod :: bg :: kind :: last :: rest)
    (hlast : last ≠ 0) (hbuf : 18 < buf.length) :
    ∃ buf' txt', ansiParse txt code buf =
        some ((ansiSequence mod bg kind last).length, buf', txt') ∧
      stringOf buf' = some (ansiSequence mod bg kind last) ∧ buf'.length = buf.length ∧
      txt'.drop (code + 4) = rest ∧ txt'.length = txt.length := by
  have hget : ∀ n, txt[code + n]? = (mod :: bg :: kind :: last :: rest)[n]? := fun n ↦ by
    rw [← hcode, List.getElem?_drop]
  have hlength : code + 4 ≤ txt.length := by
    have hdrop := congrArg List.length hcode
    simp only [List.length_drop, List.length_cons] at hdrop
    omega
  obtain ⟨hmod, hmodLength, hmodNul⟩ := modOf_spec mod
  obtain ⟨hbg, hbgLength, hbgNul⟩ := bgOf_spec bg
  obtain ⟨hfg, hfgLength, hfgNul⟩ := fgOf_spec kind hlast rfl
  have hshort : (fgOf kind last).length ≤ 7 := by
    rw [hfgLength]
    split_ifs <;> omega
  -- the text with the third character as it was rewritten
  obtain ⟨txt', htxt', hkind, hrest, hsame⟩ : ∃ txt', markHighlight txt code last = some txt' ∧
      txt'[code + 2]? = some (if (strchr ansiHighlight last).isSome then 49 else kind) ∧
      txt'.drop (code + 4) = rest ∧ txt'.length = txt.length := by
    have hdrop : txt.drop (code + 4) = rest := by
      rw [← List.drop_drop, hcode]
      rfl
    unfold markHighlight
    split_ifs
    · refine ⟨txt.set (code + 2) 49, if_pos (by omega), ?_, ?_, List.length_set⟩
      · rw [List.getElem?_set_self (by omega)]
      · rw [List.drop_set_of_lt (by omega), hdrop]
    · exact ⟨txt, rfl, hget 2, hdrop, rfl⟩
  have hne : buf ≠ [] := List.ne_nil_of_length_pos (by omega)
  obtain ⟨buf₀, hbuf₀, hstring₀, hlength₀⟩ := store_nul hne
  obtain ⟨buf₁, hbuf₁, hstring₁, hlength₁⟩ := strcat_eq_some hstring₀ hmodNul (by simp; omega)
  obtain ⟨buf₂, hbuf₂, hstring₂, hlength₂⟩ := strcat_eq_some hstring₁ hbgNul (by simp; omega)
  obtain ⟨buf₃, hbuf₃, hstring₃, hlength₃⟩ := strcat_eq_some hstring₂ hfgNul (by simp; omega)
  refine ⟨buf₃, txt', ?_, ?_, by omega, hrest, hsame⟩
  · unfold ansiParse
    have h₀ : txt[code]? = some mod := hget 0
    have h₁ : txt[code + 1]? = some bg := hget 1
    have h₃ : txt[code + 3]? = some last := hget 3
    simp only [hbuf₀, h₀, h₁, h₃, hmod, hbg, hbuf₁, hbuf₂, htxt', hkind, hfg, hbuf₃,
      strlen_of_stringOf hstring₃, Option.bind_eq_bind, Option.bind_some]
    rfl
  · exact hstring₃

/-- A code that is cut off makes `ansi_parse` read behind the text, or behind the table of bright
colours: the NUL is found in their letters. -/
theorem ansiParse_eq_none {rest : Text} (hcode : txt.drop code = rest ++ [0])
    (hrest : rest.length < 4) : ansiParse txt code buf = none := by
  have hget : txt[code + 3]? = (rest ++ [0])[3]? := by
    rw [← hcode, List.getElem?_drop]
  refine Option.eq_none_iff_forall_ne_some.mpr fun result hrun ↦ ?_
  obtain ⟨buf₀, -, hrun⟩ := Option.bind_eq_some_iff.mp hrun
  obtain ⟨mod, -, hrun⟩ := Option.bind_eq_some_iff.mp hrun
  obtain ⟨_, -, hrun⟩ := Option.bind_eq_some_iff.mp hrun
  obtain ⟨buf₁, -, hrun⟩ := Option.bind_eq_some_iff.mp hrun
  obtain ⟨bg, -, hrun⟩ := Option.bind_eq_some_iff.mp hrun
  obtain ⟨_, -, hrun⟩ := Option.bind_eq_some_iff.mp hrun
  obtain ⟨buf₂, -, hrun⟩ := Option.bind_eq_some_iff.mp hrun
  obtain ⟨last, hlast, hrun⟩ := Option.bind_eq_some_iff.mp hrun
  obtain ⟨txt', htxt', hrun⟩ := Option.bind_eq_some_iff.mp hrun
  obtain ⟨kind, hkind, hrun⟩ := Option.bind_eq_some_iff.mp hrun
  obtain ⟨fg, hfg, hrun⟩ := Option.bind_eq_some_iff.mp hrun
  have hthree : rest.length = 3 ∧ last = 0 := by
    rw [hget] at hlast
    obtain ⟨hlt, heq⟩ := List.getElem?_eq_some_iff.mp hlast
    rw [List.length_append, List.length_singleton] at hlt
    have hlength : rest.length = 3 := by omega
    refine ⟨hlength, ?_⟩
    rw [List.getElem_append_right (by omega)] at heq
    simpa [hlength] using heq.symm
  obtain ⟨hlength, rfl⟩ := hthree
  have hnul : (strchr ansiHighlight 0).isSome := by decide
  have hkind49 : kind = 49 := by
    rw [markHighlight, if_pos hnul, store] at htxt'
    split_ifs at htxt' with hlt
    obtain rfl := Option.some.inj htxt'
    rw [List.getElem?_set_self hlt] at hkind
    exact (Option.some.inj hkind).symm
  have hbehind : fgEntry 49 0 = none := by decide
  rw [hkind49, hbehind] at hfg
  cases hfg

end Sequences

end HavokMud.Colors
