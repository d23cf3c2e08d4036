import HavokMud.BTree.PartialKeys
import HavokMud.Matching.FirstFit
import HavokMud.Objects.KeywordRuns

/-!
# Matching keywords

`KeywordsMatch` looks up the words of one list in another.  Each word takes the first word that
matches it and that no earlier one has taken.
-/

namespace HavokMud.Keywords

open BTree Matching Objects

/-- A `Keywords_t`.  A word may be NULL, and `found` may not be allocated. -/
structure KeywordList where
  words : List (Option Word)
  length : List Int32
  found : Option (List Bool)
  exact : Bool
  partialMatch : Bool
  sized : length.length = words.length

/-- An `int` as a `size_t`. -/
def toSize (n : Int32) : ℕ :=
  (n.toInt % 2 ^ 64).toNat

/-- Whether a word with its length matches a word of the other list. -/
def matchesWord (partialMatch : Bool) (tofind : Option Word × Int32) (keyword : Option Word) :
    Bool :=
  match tofind.1, keyword with
  | some word, some keyword =>
      (if partialMatch then strncasecmp word.1 keyword.1 (toSize tofind.2)
        else strcasecmp word.1 keyword.1) == 0
  | _, _ => false

/-- `KeywordsMatch`, with the marks that it leaves in `keywords->found`. -/
def keywordsMatch (tofind keywords : Option KeywordList) : Bool × Option KeywordList :=
  match tofind, keywords with
  | some tofind, some keywords =>
      if keywords.found.isNone then (false, some keywords)
      else
        let found := List.replicate keywords.words.length false
        if tofind.exact ∧ tofind.words.length ≠ keywords.words.length then
          (false, some { keywords with found := some found })
        else
          let result := markEach (matchesWord tofind.partialMatch) keywords.words
            (tofind.words.zip tofind.length) found
          (result.1, some { keywords with found := some result.2 })
  | _, keywords => (false, keywords)

/-- The words of the list, none of which is NULL. -/
def KeywordList.Has (key : KeywordList) (words : List Word) : Prop :=
  key.words = words.map some

/-- How often a word is in a list, in any case. -/
def occurrences (word : Word) (words : List Word) : ℕ :=
  words.countP fun other ↦ fold other.1 = fold word.1

section Matching

variable {tofind keywords : KeywordList} {ws ks : List Word}

theorem keywordsMatch_iff (hfound : keywords.found ≠ none) :
    (keywordsMatch (some tofind) (some keywords)).1 = true ↔
      (tofind.exact = true → tofind.words.length = keywords.words.length) ∧
        (markEach (matchesWord tofind.partialMatch) keywords.words
          (tofind.words.zip tofind.length)
          (List.replicate keywords.words.length false)).1 = true := by
  have hsome : ¬ keywords.found.isNone = true := by simpa using hfound
  unfold keywordsMatch
  simp only [hsome]
  by_cases hcount : tofind.exact = true ∧ tofind.words.length ≠ keywords.words.length
  · rw [if_pos hcount]
    exact iff_of_false (by simp) fun h ↦ hcount.2 (h.1 hcount.1)
  · rw [if_neg hcount]
    exact (and_iff_right (by simpa using hcount)).symm

theorem KeywordList.Has.length_eq {key : KeywordList} {words : List Word} (h : key.Has words) :
    key.words.length = words.length := by
  rw [show key.words = words.map some from h, List.length_map]

/-! ## Whole words -/

theorem strcasecmp_eq_zero_iff {l r : List UInt8} (hl : 0 ∉ l) (hr : 0 ∉ r) :
    strcasecmp l r = 0 ↔ fold l = fold r :=
  SearchTree.eq_zero_iff_of_order (strcasecmp_order hl hr).1 (strcasecmp_order hl hr).2

theorem occurrences_eq_count (word : Word) (words : List Word) :
    occurrences word words = (words.map fun other ↦ fold other.1).count (fold word.1) := by
  rw [occurrences, List.count, List.countP_map]
  refine List.countP_congr fun other _ ↦ ?_
  simp

/-- What is counted are words of the list. -/
theorem forall_count_iff (rel : ℕ → ℕ → Prop) (hzero : rel 0 0) (ws ks : List Word) :
    (∀ c, rel ((ws.map fun w ↦ fold w.1).count c) ((ks.map fun w ↦ fold w.1).count c)) ↔
      ∀ word, rel (occurrences word ws) (occurrences word ks) := by
  constructor
  · intro h word
    rw [occurrences_eq_count, occurrences_eq_count]
    exact h _
  · intro h c
    by_cases hc : c ∈ (ws ++ ks).map fun w ↦ fold w.1
    · obtain ⟨word, -, rfl⟩ := List.mem_map.mp hc
      rw [← occurrences_eq_count, ← occurrences_eq_count]
      exact h word
    · rw [List.map_append, List.mem_append, not_or] at hc
      rw [List.count_eq_zero.mpr hc.1, List.count_eq_zero.mpr hc.2]
      exact hzero

/-- Without `partial` the marking compares how often the words occur. -/
theorem markEach_full_iff (htofind : tofind.Has ws) (hkeywords : keywords.Has ks) :
    (markEach (matchesWord false) keywords.words (tofind.words.zip tofind.length)
        (List.replicate keywords.words.length false)).1 = true ↔
      ∀ word, occurrences word ws ≤ occurrences word ks := by
  have hws : tofind.words = ws.map some := htofind
  have hks : keywords.words = ks.map some := hkeywords
  have hkind : ∀ x ∈ tofind.words.zip tofind.length, ∀ y ∈ keywords.words,
      matchesWord false x y = true ↔
        (x.1.map fun w ↦ fold w.1).getD [] = (y.map fun w ↦ fold w.1).getD [] := by
    rintro ⟨x, n⟩ hx y hy
    rw [hks] at hy
    have hx' := (List.of_mem_zip hx).1
    rw [hws] at hx'
    obtain ⟨w, -, rfl⟩ := List.mem_map.mp hx'
    obtain ⟨k, -, rfl⟩ := List.mem_map.mp hy
    simpa [matchesWord] using strcasecmp_eq_zero_iff w.2 k.2
  have hxs : (tofind.words.zip tofind.length).map
      (fun x ↦ (x.1.map fun w : Word ↦ fold w.1).getD []) = ws.map fun w ↦ fold w.1 := by
    calc
      _ = ((tofind.words.zip tofind.length).map Prod.fst).map
          fun x ↦ (x.map fun w : Word ↦ fold w.1).getD [] := by rw [List.map_map]; rfl
      _ = ws.map fun w ↦ fold w.1 := by
        rw [List.map_fst_zip tofind.sized.ge, hws, List.map_map]
        rfl
  have hys : keywords.words.map (fun y ↦ (y.map fun w : Word ↦ fold w.1).getD []) =
      ks.map fun w ↦ fold w.1 := by
    rw [hks, List.map_map]
    rfl
  rw [markEach_iff_count hkind, freeKinds_none, hxs, hys]
  exact forall_count_iff (fun m n ↦ m ≤ n) le_rfl ws ks

/-- With enough of every word, lists of one length have the same words. -/
theorem length_eq_iff (hle : ∀ word, occurrences word ws ≤ occurrences word ks) :
    ws.length = ks.length ↔ ∀ word, occurrences word ws = occurrences word ks := by
  have hcount := (forall_count_iff (fun m n ↦ m ≤ n) le_rfl ws ks).mpr hle
  have hsub : (ws.map fun w ↦ fold w.1).Subperm (ks.map fun w ↦ fold w.1) :=
    List.subperm_ext_iff.mpr fun c _ ↦ hcount c
  have heq := forall_count_iff (fun m n ↦ m = n) rfl ws ks
  rw [← heq, ← List.perm_iff_count]
  constructor
  · intro hlength
    exact hsub.perm_of_length_le (by simp [hlength])
  · intro hperm
    simpa using hperm.length_eq

/-- Without `partial`, `KeywordsMatch` says whether each word occurs at least as often in the one
list as in the other, and with `exact` just as often, whatever the order of the two lists. -/
theorem keywordsMatch_full_iff (htofind : tofind.Has ws) (hkeywords : keywords.Has ks)
    (hfound : keywords.found ≠ none) (hmode : tofind.partialMatch = false) :
    ((keywordsMatch (some tofind) (some keywords)).1 = true ↔
        (∀ word, occurrences word ws ≤ occurrences word ks) ∧
          (tofind.exact = true → ∀ word, occurrences word ws = occurrences word ks)) ∧
      ∀ (tofind' keywords' : KeywordList) (ws' ks' : List Word), tofind'.Has ws' →
        keywords'.Has ks' → keywords'.found ≠ none → tofind'.partialMatch = false →
        tofind'.exact = tofind.exact → ws'.Perm ws → ks'.Perm ks →
        (keywordsMatch (some tofind') (some keywords')).1 =
          (keywordsMatch (some tofind) (some keywords)).1 := by
  have hiff : ∀ (tofind keywords : KeywordList) (ws ks : List Word), tofind.Has ws →
      keywords.Has ks → keywords.found ≠ none → tofind.partialMatch = false →
      ((keywordsMatch (some tofind) (some keywords)).1 = true ↔
        (∀ word, occurrences word ws ≤ occurrences word ks) ∧
          (tofind.exact = true → ∀ word, occurrences word ws = occurrences word ks)) := by
    intro tofind keywords ws ks htofind hkeywords hfound hmode
    rw [keywordsMatch_iff hfound, hmode, markEach_full_iff htofind hkeywords,
      htofind.length_eq, hkeywords.length_eq, and_comm]
    refine and_congr_right fun hle ↦ ?_
    rw [length_eq_iff hle]
  refine ⟨hiff _ _ _ _ htofind hkeywords hfound hmode, ?_⟩
  intro tofind' keywords' ws' ks' htofind' hkeywords' hfound' hmode' hexact hws hks
  have hocc : ∀ word, occurrences word ws' = occurrences word ws ∧
      occurrences word ks' = occurrences word ks :=
    fun word ↦ ⟨hws.countP_eq _, hks.countP_eq _⟩
  rw [Bool.eq_iff_iff, hiff _ _ _ _ htofind' hkeywords' hfound' hmode',
    hiff _ _ _ _ htofind hkeywords hfound hmode, hexact]
  simp only [hocc]

/-! ## Prefixes -/

/-- The word is a prefix of the keyword, in any case. -/
def abbreviates (word keyword : Word) : Bool :=
  StartsWith word.1 keyword.1

theorem abbreviates_iff {word keyword : Word} :
    abbreviates word keyword = true ↔ StartsWith word.1 keyword.1 :=
  decide_eq_true_iff

/-- If no word is a proper prefix of a later one, an assignment is found whenever there is one. -/
theorem exists_firstFit_of_longer_first
    (hlonger : ws.Pairwise fun w w' ↦ abbreviates w w' = true → abbreviates w' w = true)
    (hassigns : ∃ js, Assigns abbreviates ks ws js) : ∃ js, FirstFit abbreviates ks [] ws js := by
  obtain ⟨js, hjs⟩ := hassigns
  refine exists_firstFit (hlonger.imp ?_) ⟨js, hjs, by simp⟩
  intro w w' hww' k hwk hw'k z hwz
  rw [abbreviates_iff] at *
  rw [abbreviates_iff] at hww'
  -- of two prefixes of one keyword one is a prefix of the other
  have hw'w : fold w'.1 <+: fold w.1 :=
    (List.prefix_or_prefix_of_prefix hw'k hwk).elim id hww'
  exact hw'w.trans hwz

end Matching

/-! ## Short lists -/

/-- A list of words with their lengths. -/
def listOf (words : List Word) (exact partialMatch : Bool) : KeywordList where
  words := words.map some
  length := words.map fun word ↦ Int32.ofNat word.1.length
  found := some []
  exact := exact
  partialMatch := partialMatch
  sized := by simp

def shield : Word := ⟨[115, 104, 105, 101, 108, 100], by simp⟩

theorem keywordsMatch_full_iff_sword :
    (keywordsMatch (some (listOf [sword] true false)) (some (listOf [sword, shield] false false))).1
        = true ↔
      (∀ word, occurrences word [sword] ≤ occurrences word [sword, shield]) ∧
        (true = true → ∀ word, occurrences word [sword] = occurrences word [sword, shield]) :=
  (@keywordsMatch_full_iff (listOf [sword] true false) (listOf [sword, shield] false false)
    [sword] [sword, shield] rfl rfl (by simp [listOf]) rfl).1

end HavokMud.Keywords
