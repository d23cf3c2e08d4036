import HavokMud.Commands.Arguments

/-!
# Calls of `get_argument` one after another

What a call leaves of a line is the line behind the word that it yields, and the words that were
yielded before stay where they are.  So the calls yield the words of the line, and then NULL.
-/

namespace HavokMud.Commands

open BTree Sequence

/-! ## Lines -/

/-- A line whose only white space is the blank. -/
structure Plain (line : List UInt8) : Prop where
  nul : 0 ∉ line
  blank : ∀ c ∈ line, isSpace c = true → c = 32

/-- The maximal runs without blanks. -/
def words (line : List UInt8) : List (List UInt8) :=
  runs (· == 32) line

/-- The words of a line, or those of them that are no fill words. -/
def keptWords (doFill : Bool) (line : List UInt8) : List (List UInt8) :=
  (words line).filter fun word ↦ !(doFill && decide (IsFill word))

/-- The part of a line that is left, behind what was read before.  Behind the last word it may be
NULL. -/
structure Left (memory : Memory) (rest : Option ℕ) (past line : List UInt8) : Prop where
  plain : Plain line
  memory_eq : memory = past ++ (if rest = none then [] else line ++ [0])
  index : ∀ i, rest = some i → i = past.length
  ended : rest = none → line = []

section Lines

variable {memory pre past line word gap tail : List UInt8} {i : ℕ}

theorem Plain.of_append_right {xs ys : List UInt8} (h : Plain (xs ++ ys)) : Plain ys :=
  ⟨fun hmem ↦ h.nul (List.mem_append_right xs hmem),
    fun c hc ↦ h.blank c (List.mem_append_right xs hc)⟩

theorem isSpace_eq_blank (hline : Plain line) : ∀ c ∈ line, isSpace c = (c == 32) := by
  intro c hc
  rw [Bool.eq_iff_iff, beq_iff_eq]
  constructor
  · exact hline.blank c hc
  · rintro rfl
    rfl

/-- The turn of the loop at the next word of a line. -/
structure Turn (past line w : List UInt8) (c : UInt8) (start : List UInt8) (memory : Memory)
    (rest : Option ℕ) (line' : List UInt8) : Prop where
  skip : skipSpaces (past ++ (line ++ [0])) past.length = some (some start.length)
  char : (past ++ (line ++ [0]))[start.length]? = some c
  separate : strsep (past ++ (line ++ [0])) start.length 32 = some (memory, rest)
  memory_eq : ∃ tail, memory = start ++ (w ++ 0 :: tail)
  past_prefix : past <+: start
  left : Left memory rest (start ++ (w ++ [0])) line'
  shorter : line'.length < line.length

theorem exists_turn {w : List UInt8} {ws : List (List UInt8)} (hline : Plain line)
    (hwords : words line = w :: ws) (past : List UInt8) :
    0 ∉ w ∧ (∀ c ∈ w, isSpace c = false) ∧
      ∃ c start memory rest line', Turn past line w c start memory rest line' ∧
        words line' = ws := by
  obtain ⟨gap, hgap, hne, hrun, hend⟩ := runs_eq_cons hwords
  have hblank := isSpace_eq_blank hline
  have hwline : ∀ c ∈ w, c ∈ line := by
    rcases hend with ⟨rfl, -⟩ | ⟨x, ys, -, rfl, -⟩ <;> simp +contextual
  have hgline : ∀ c ∈ gap, c ∈ line := by
    rcases hend with ⟨rfl, -⟩ | ⟨x, ys, -, rfl, -⟩ <;> simp +contextual
  have hnul : 0 ∉ w := fun hmem ↦ hline.nul (hwline 0 hmem)
  have hspace : ∀ c ∈ w, isSpace c = false := fun c hc ↦ (hblank c (hwline c hc)).trans (hrun c hc)
  have hgap' : ∀ c ∈ gap, isSpace c = true :=
    fun c hc ↦ (hblank c (hgline c hc)).trans (hgap c hc)
  have h32 : 32 ∉ w := fun hmem ↦ absurd (hspace 32 hmem) (by decide)
  obtain ⟨c, w', rfl⟩ := List.exists_cons_of_ne_nil hne
  have hc := hspace c (by simp)
  have hzero : c ≠ 0 := fun heq ↦ hnul (by simp [heq])
  refine ⟨hnul, hspace, c, past ++ gap, ?_⟩
  have hlength : 0 < (c :: w').length := Nat.succ_pos _
  rcases hend with ⟨rfl, rfl⟩ | ⟨x, ys, hx, rfl, hys⟩
  · have hmemory : past ++ (gap ++ (c :: w') ++ [0]) = (past ++ gap) ++ (c :: w' ++ 0 :: []) := by
      simp
    refine ⟨past ++ (gap ++ (c :: w') ++ [0]), none, [], ⟨?_, ?_, ?_, ⟨[], hmemory⟩,
      List.prefix_append _ _, ⟨⟨by simp, by simp⟩, ?_, by simp, fun _ ↦ rfl⟩, ?_⟩, rfl⟩
    · have hskip := skipSpaces_word past hgap' hc hzero (w' ++ [0])
      simpa using hskip
    · rw [hmemory]
      simp
    · rw [hmemory]
      exact strsep_end _ hnul h32 []
    · simp
    · simp
  · obtain rfl : x = 32 := by simpa using hx
    have hmemory : past ++ (gap ++ (c :: w' ++ 32 :: ys) ++ [0]) =
        (past ++ gap) ++ (c :: w' ++ 32 :: (ys ++ [0])) := by
      simp
    refine ⟨(past ++ gap) ++ (c :: w' ++ 0 :: (ys ++ [0])),
      some (past ++ gap ++ (c :: w' ++ [0])).length, ys, ⟨?_, ?_, ?_, ⟨ys ++ [0], rfl⟩,
      List.prefix_append _ _, ⟨?_, ?_, ?_, by simp⟩, ?_⟩, hys⟩
    · have hskip := skipSpaces_word past hgap' hc hzero (w' ++ 32 :: (ys ++ [0]))
      simpa using hskip
    · rw [hmemory]
      simp
    · rw [hmemory]
      exact strsep_delim _ hnul h32 (by decide) (ys ++ [0])
    · have hrest : Plain ([32] ++ ys) := hline.of_append_right.of_append_right
      exact hrest.of_append_right
    · simp
    · rintro i ⟨⟩
      rfl
    · simp
      omega

end Lines

/-! ## Calls -/

/-- The tree tells the fill words from the other words of a line. -/
def Tells (fuel : ℕ) (fillWords : Heap ℕ (List UInt8) Unit) : Prop :=
  ∀ word, 0 ∉ word → (∀ c ∈ word, isSpace c = false) →
    fillWord fuel fillWords word = some (decide (IsFill word))

/-- What a call yields of a line: NULL behind the last word, and else the next word, in some form,
with what is left of the line behind it. -/
structure Yields (form : List UInt8 → List UInt8) (doFill : Bool) (past line : List UInt8)
    (result : Argument) : Prop where
  past_prefix : past <+: result.memory
  last : keptWords doFill line = [] → result.arg = none ∧ result.line = none
  next : ∀ word rest, keptWords doFill line = word :: rest →
    ∃ start line', result.arg = some start.length ∧ past <+: start ∧ 0 ∉ word ∧
      Left result.memory result.line (start ++ (form word ++ [0])) line' ∧
      line'.length < line.length ∧ keptWords doFill line' = rest

section Calls

variable {fuel turns : ℕ} {fillWords : Heap ℕ (List UInt8) Unit} {doFill : Bool}
  {memory past line : List UInt8} {rest : Option ℕ}

theorem keptWords_cons {w : List UInt8} {ws : List (List UInt8)} (hwords : words line = w :: ws)
    {line' : List UInt8} (hws : words line' = ws) : keptWords doFill line =
      if doFill = true ∧ IsFill w then keptWords doFill line' else w :: keptWords doFill line' := by
  unfold keptWords
  rw [hwords, hws]
  by_cases hfill : doFill = true ∧ IsFill w
  · rw [if_pos hfill, List.filter_cons_of_neg (by simp [hfill])]
  · rw [if_neg hfill, List.filter_cons_of_pos (by simpa [imp_iff_not_or] using hfill)]

theorem keptWords_of_words_eq_nil (hwords : words line = []) : keptWords doFill line = [] := by
  rw [keptWords, hwords]
  rfl

theorem Yields.null (hwords : words line = []) (hpast : past <+: memory)
    (form : List UInt8 → List UInt8) : Yields form doFill past line ⟨memory, none, none⟩ := by
  have hkept : keptWords doFill line = [] := keptWords_of_words_eq_nil hwords
  refine ⟨hpast, fun _ ↦ ⟨rfl, rfl⟩, ?_⟩
  intro word rest hcons
  rw [hkept] at hcons
  cases hcons

/-- What is yielded behind words that are passed over. -/
theorem Yields.earlier {form : List UInt8 → List UInt8} {past' line' : List UInt8}
    {result : Argument} (h : Yields form doFill past' line' result) (hpast : past <+: past')
    (hkept : keptWords doFill line = keptWords doFill line')
    (hshorter : line'.length < line.length) :
    Yields form doFill past line result where
  past_prefix := hpast.trans h.past_prefix
  last hnil := h.last (hkept.symm.trans hnil)
  next word rest hcons := by
    obtain ⟨start, line'', harg, hstart, hnul, hleft, hless, hrest⟩ :=
      h.next word rest (hkept.symm.trans hcons)
    exact ⟨start, line'', harg, hpast.trans hstart, hnul, hleft, hless.trans hshorter, hrest⟩

/-- The loop, whose argument is still to be converted to lower case. -/
theorem splitLoop_spec (htells : Tells fuel fillWords) (doFill : Bool)
    (hleft : Left memory rest past line) (hturns : line.length < turns) :
    ∃ result, splitLoop fuel fillWords doFill 0 turns memory rest = some result ∧
      Yields id doFill past line result := by
  induction turns generalizing memory rest past line with
  | zero => omega
  | succ turns ih =>
      have hmemory := hleft.memory_eq
      cases rest with
      | none =>
          obtain rfl := hleft.ended rfl
          exact ⟨_, rfl, .null rfl ⟨[], by simpa using hmemory.symm⟩ id⟩
      | some i =>
          obtain rfl := hleft.index i rfl
          rw [if_neg (Option.some_ne_none _)] at hmemory
          subst hmemory
          cases hwords : words line with
          | nil =>
              have hspace : ∀ c ∈ line, isSpace c = true := fun c hc ↦
                (isSpace_eq_blank hleft.plain c hc).trans (runs_eq_nil_iff.mp hwords c hc)
              have hskip := skipSpaces_blank past hspace []
              refine ⟨⟨past ++ (line ++ [0]), none, none⟩, ?_,
                .null hwords (List.prefix_append _ _) id⟩
              simp [splitLoop, hskip]
          | cons w ws =>
              obtain ⟨hnul, hspace, c, start, memory, rest, line', hturn, hws⟩ :=
                exists_turn hleft.plain hwords past
              have hstring : stringAt memory start.length = some w := by
                obtain ⟨tail, rfl⟩ := hturn.memory_eq
                exact stringAt_append start hnul tail
              have hrun : splitLoop fuel fillWords doFill 0 (turns + 1) (past ++ (line ++ [0]))
                  (some past.length) =
                  if doFill = true ∧ IsFill w then
                    splitLoop fuel fillWords doFill 0 turns memory rest
                  else some ⟨memory, some start.length, rest⟩ := by
                simp only [splitLoop, hturn.skip, hturn.char, hturn.separate, hstring,
                  Option.bind_eq_bind, Option.bind_some, ne_eq, not_true_eq_false, false_and,
                  if_false]
                cases doFill <;> simp [htells w hnul hspace]
              have hkept : keptWords doFill line = if doFill = true ∧ IsFill w then
                  keptWords doFill line' else w :: keptWords doFill line' :=
                keptWords_cons hwords hws
              have hshorter := hturn.shorter
              rw [hrun]
              have hpast : past <+: start ++ (w ++ [0]) :=
                hturn.past_prefix.trans (List.prefix_append _ _)
              split_ifs at hkept ⊢ with hfill
              · obtain ⟨result, hresult, hyields⟩ := ih hturn.left (by omega)
                exact ⟨result, hresult, hyields.earlier hpast hkept hshorter⟩
              · refine ⟨_, rfl, ⟨?_, ?_, ?_⟩⟩
                · obtain ⟨tail, rfl⟩ := hturn.memory_eq
                  exact hturn.past_prefix.trans (List.prefix_append _ _)
                · intro hnil
                  rw [hkept] at hnil
                  cases hnil
                · intro word args hcons
                  obtain ⟨rfl, rfl⟩ := List.cons.inj (hkept.symm.trans hcons)
                  exact ⟨start, line', rfl, hturn.past_prefix, hnul, hturn.left, hshorter, rfl⟩

theorem nul_not_mem_lowerText {word : List UInt8} (hword : 0 ∉ word) : 0 ∉ lowerText word := by
  intro hmem
  obtain ⟨c, hc, hzero⟩ := List.mem_map.mp hmem
  have hpos := toLower_toNat_pos (c := c) fun heq ↦ hword (heq ▸ hc)
  rw [hzero] at hpos
  exact absurd hpos (by decide)

theorem Left.lower {start w line' : List UInt8}
    (hleft : Left memory rest (start ++ (w ++ [0])) line') :
    Left (lowerLoop w.length memory start.length) rest (start ++ (lowerText w ++ [0])) line' := by
  refine ⟨hleft.plain, ?_, ?_, hleft.ended⟩
  · rw [hleft.memory_eq, List.append_assoc, List.append_assoc, lowerLoop_append]
    simp
  · intro i hi
    rw [hleft.index i hi]
    simp [lowerText]

/-- One call, on what is left of a line. -/
theorem getArgumentCommon_spec (htells : Tells fuel fillWords) (doFill : Bool)
    (hleft : Left memory rest past line) (hfuel : line.length < fuel) :
    ∃ result, getArgumentCommon fuel fillWords memory rest doFill 0 = some result ∧
      Yields lowerText doFill past line result := by
  have hmemory := hleft.memory_eq
  cases rest with
  | none =>
      obtain rfl := hleft.ended rfl
      exact ⟨_, rfl, .null rfl ⟨[], by simpa using hmemory.symm⟩ _⟩
  | some i =>
      obtain rfl := hleft.index i rfl
      rw [if_neg (Option.some_ne_none _)] at hmemory
      cases hline : line with
      | nil =>
          refine ⟨⟨memory, none, none⟩, ?_, .null rfl ⟨[0], by rw [hmemory, hline]; rfl⟩ _⟩
          simp [getArgumentCommon, hmemory, hline]
      | cons c line' =>
          have hc : c ≠ 0 := fun heq ↦ hleft.plain.nul (by simp [hline, heq])
          have hchar : memory[past.length]? = some c := by simp [hmemory, hline]
          rw [← hline]
          obtain ⟨split, hsplit, hyields⟩ := splitLoop_spec htells doFill hleft hfuel
          cases hkept : keptWords doFill line with
          | nil =>
              obtain ⟨harg, hrest⟩ := hyields.last hkept
              refine ⟨split, ?_, hyields.past_prefix, fun _ ↦ ⟨harg, hrest⟩, ?_⟩
              · simp [getArgumentCommon, hchar, hc, hsplit, harg]
              · intro word args hcons
                rw [hkept] at hcons
                cases hcons
          | cons w ws =>
              obtain ⟨start, line'', harg, hpast, hnul, hleft', hshorter, hws⟩ :=
                hyields.next w ws hkept
              have hstring : stringAt split.memory start.length = some w := by
                rw [hleft'.memory_eq]
                simpa using stringAt_append start hnul _
              have hlower : Left (lowerLoop w.length split.memory start.length) split.line
                  (start ++ (lowerText w ++ [0])) line'' := hleft'.lower
              refine ⟨{ split with memory := lowerLoop w.length split.memory start.length }, ?_,
                ?_, ?_, ?_⟩
              · simp [getArgumentCommon, hchar, hc, hsplit, harg, hstring]
              · rw [hlower.memory_eq, List.append_assoc]
                exact hpast.trans (List.prefix_append _ _)
              · intro hnil
                rw [hkept] at hnil
                cases hnil
              · intro word args hcons
                obtain ⟨rfl, rfl⟩ := List.cons.inj (hkept.symm.trans hcons)
                exact ⟨start, line'', harg, hpast, hnul, hlower, hshorter, hws⟩

theorem stringAt_of_prefix {start word : List UInt8} (hword : 0 ∉ word)
    (hbegins : start ++ (word ++ [0]) <+: memory) : stringAt memory start.length = some word := by
  obtain ⟨tail, rfl⟩ := hbegins
  simpa using stringAt_append start hword tail

end Calls

end HavokMud.Commands
