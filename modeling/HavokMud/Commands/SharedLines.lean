import HavokMud.Commands.Parser
import HavokMud.Memory.LinkCounts

/-!
# Lines that are linked

`CommandParser` takes its copy of a line that begins with a letter from `memstrlink`, and
`get_argument_nofill` writes into it.  So whoever holds a link to the line, in any case of its
letters, is left with the first word of it in lower case; and the tree of interned strings is out of
order afterwards if a string lies between that word and the line.
-/

namespace HavokMud.Commands

open BinaryTree BTree SearchTree Memory HavokMud.Interval

/-! ## The source -/

/-- `get_argument_nofill` on the string at an address. -/
def cutString (fuel : ℕ) (fillWords : Heap ℕ (List UInt8) Unit) (s : State) (arg : ℤ) :
    Option (State × Argument) := do
  let argument ← getArgumentNofill fuel fillWords (Memory.cstring s.mem arg ++ [0]) (some 0)
  some ({ s with mem := writeBytes s.mem arg argument.memory }, argument)

/-- The first word of a line, in lower case. -/
def verbOf (line : List UInt8) : List UInt8 :=
  lowerText (line.takeWhile (· ≠ 32))

/-! ## The first word -/

section Words

variable {fuel : ℕ} {fillWords : Heap ℕ (List UInt8) Unit} {c : UInt8} {line : List UInt8}

/-- A first word without blanks in front of it is split off at once. -/
theorem getArgumentNofill_strsep {memory memory' : Memory} {rest : Option ℕ} {word : List UInt8}
    (hc : isSpace c = false) (hzero : c ≠ 0) (hsep : strsep (c :: memory) 0 32 = some (memory', rest))
    (hword : stringAt memory' 0 = some word) :
    getArgumentNofill (fuel + 1) fillWords (c :: memory) (some 0) =
      some ⟨lowerLoop word.length memory' 0, some 0, rest⟩ := by
  have hskip : skipSpaces (c :: memory) 0 = some (some 0) := by
    simp [skipSpaces, skipLoop, hc, hzero]
  simp [getArgumentNofill, getArgumentCommon, splitLoop, hskip, hsep, hword, hzero]

/-- The first word stands at the beginning of the memory then, which is as long as before. -/
theorem getArgumentNofill_first (hc : isSpace c = false) (hnul : 0 ∉ c :: line) :
    ∃ memory rest tail, getArgumentNofill (fuel + 1) fillWords (c :: line ++ [0]) (some 0) =
        some ⟨memory, some 0, rest⟩ ∧
      memory = verbOf (c :: line) ++ 0 :: tail ∧ memory.length = (c :: line).length + 1 := by
  have hzero : c ≠ 0 := fun h ↦ hnul (h ▸ List.mem_cons_self)
  by_cases hblank : (32 : UInt8) ∈ c :: line
  · obtain ⟨word, rest, hline, hword⟩ := List.eq_append_cons_of_mem hblank
    rw [hline, List.mem_append, not_or] at hnul
    have hverb : verbOf (c :: line) = lowerText word := by
      have hne : ∀ d ∈ word, decide (d ≠ 32) = true := fun d hd ↦
        decide_eq_true fun h ↦ hword (h ▸ hd)
      rw [verbOf, hline, List.takeWhile_append_of_pos hne]
      simp
    have hsep := strsep_delim [] hnul.1 hword (by decide) (rest ++ [0])
    have hstring := stringAt_append [] hnul.1 (rest ++ [0])
    have hmemory : c :: (line ++ [0]) = [] ++ (word ++ 32 :: (rest ++ [0])) := by
      rw [← List.cons_append, hline]
      simp
    have hlower := lowerLoop_append [] word (0 :: (rest ++ [0]))
    rw [← hmemory] at hsep
    refine ⟨_, _, rest ++ [0], getArgumentNofill_strsep hc hzero hsep hstring, ?_, ?_⟩
    · rw [hverb]
      exact hlower
    · refine (congrArg List.length hlower).trans ?_
      rw [hline]
      simp [lowerText, Nat.add_assoc]
  · have hverb : verbOf (c :: line) = lowerText (c :: line) := by
      rw [verbOf, List.takeWhile_eq_self_iff.mpr]
      exact fun d hd ↦ decide_eq_true fun h ↦ hblank (h ▸ hd)
    have hsep := strsep_end [] hnul hblank []
    have hstring := stringAt_append [] hnul []
    have hlower := lowerLoop_append [] (c :: line) [0]
    refine ⟨_, _, [], getArgumentNofill_strsep hc hzero hsep hstring, ?_, ?_⟩
    · rw [hverb]
      exact hlower
    · refine (congrArg List.length hlower).trans ?_
      simp [lowerText]

theorem fold_verbOf_initial (line : List UInt8) : fold (verbOf line) <+: fold line := by
  rw [verbOf, fold_lowerText]
  exact (List.takeWhile_prefix _).map _

/-- Lines that are equal but for the case of their letters have one first word. -/
theorem verbOf_congr {a b : List UInt8} (h : fold a = fold b) : verbOf a = verbOf b := by
  have hlower : ∀ line, verbOf line = (lowerText line).takeWhile (· ≠ 32) := by
    intro line
    have hcomp : (fun c : UInt8 ↦ decide (c ≠ 32)) ∘ toLower = fun c ↦ decide (c ≠ 32) := by
      funext c
      simp [toLower_eq_blank_iff]
    rw [verbOf, lowerText, lowerText, List.takeWhile_map, hcomp]
  rw [hlower, hlower, lowerText_of_fold h]

end Words

/-! ## The record of the line -/

section Records

variable {pl : Platform} {now : ℤ} {s s' : State} {records : List ℤ} {r : ℤ}

/-- The first word was cut off in the record at `r`. -/
structure LineCut (pl : Platform) (s s' : State) (r : ℤ) : Prop where
  tree : s'.stringTree = s.stringTree
  count : s'.count = s.count
  allocator : s'.allocator = s.allocator
  text : s'.textOf pl r = verbOf (s.textOf pl r)
  frame : ∀ a, a < r ∨ r + (pl.sizeofString + (s.textOf pl r).length) ≤ a → s'.mem a = s.mem a

/-- Writing inside one record leaves the texts of the others. -/
theorem textOf_of_frame (h : Interned pl now s records) (hr : r ∈ inorder s.stringTree)
    (hframe : ∀ a, a < r ∨ r + (pl.sizeofString + (s.textOf pl r).length) ≤ a →
      s'.mem a = s.mem a) {b : ℤ} (hb : b ∈ inorder s.stringTree) (hne : b ≠ r) :
    s'.textOf pl b = s.textOf pl b := by
  have hbuf := pl.buf_inside
  refine h.textOf_congr hb fun a hlo hhi ↦ hframe a ?_
  rcases h.inv.apart_of_ne (h.placed b hb) (h.placed r hr) hne with hap | hap <;>
    simp only at hap <;> omega

theorem cutString_spec (h : Interned pl now s records) (hr : r ∈ inorder s.stringTree)
    (fuel : ℕ) (fillWords : Heap ℕ (List UInt8) Unit)
    (hfirst : ∀ c ∈ (s.textOf pl r).head?, isSpace c = false) (hne : s.textOf pl r ≠ []) :
    ∃ s' argument, cutString (fuel + 1) fillWords s (r + pl.bufOffset) = some (s', argument) ∧
      LineCut pl s s' r := by
  have hbuf := pl.buf_inside
  have hnul : 0 ∉ s.textOf pl r := nul_not_mem_cstring _ _
  have hlength := h.length_lt hr
  obtain ⟨c, line, htext⟩ := List.exists_cons_of_ne_nil hne
  rw [htext] at hfirst hnul
  obtain ⟨memory, rest, tail, hrun, hmemory, hsize⟩ :=
    @getArgumentNofill_first fuel fillWords c line (hfirst c rfl) hnul
  rw [← htext] at hrun hmemory hsize
  have hcut : cutString (fuel + 1) fillWords s (r + pl.bufOffset) =
      some ({ s with mem := writeBytes s.mem (r + pl.bufOffset) memory }, ⟨memory, some 0, rest⟩) := by
    rw [cutString, show Memory.cstring s.mem (r + pl.bufOffset) = s.textOf pl r from rfl, hrun]
    rfl
  refine ⟨_, _, hcut, rfl, rfl, rfl, ?_, fun a ha ↦ writeBytes_of_apart (by omega)⟩
  have hverb : (verbOf (s.textOf pl r)).length ≤ (s.textOf pl r).length := by
    simpa [fold] using (fold_verbOf_initial (s.textOf pl r)).length_le
  have hnul' : 0 ∉ verbOf (s.textOf pl r) := by
    rw [← htext] at hnul
    exact nul_not_mem_lowerText fun hmem ↦ hnul (List.takeWhile_subset _ hmem)
  have hspells : Spells (writeBytes s.mem (r + pl.bufOffset) memory) (r + pl.bufOffset)
      (verbOf (s.textOf pl r)) := by
    subst hmemory
    refine Spells.of_bytes hnul' (fun i hi ↦ ?_) ?_
    · rw [writeBytes_at (by rw [List.length_append]; omega), List.getElem_append_left hi]
    · rw [writeBytes_at (by simp), List.getElem_append_right le_rfl]
      simp
  exact hspells.cstring_eq (by omega)

/-- With the tree in order the record is found again by its new text. -/
theorem memfree_lineCut (h : Interned pl now s records) (hr : r ∈ inorder s.stringTree)
    (hcut : LineCut pl s s' r) (hsorted : Sorted (fun b ↦ fold (s'.textOf pl b)) s'.stringTree)
    (hempty : ∀ b ∈ inorder s.stringTree, s.textOf pl b ≠ []) :
    memfree pl s' now (r + pl.bufOffset) =
      some (if toInt (s.count r - 1) ≤ 0 then s'.unlink pl r
        else s'.setCount r (toInt (s.count r - 1))) := by
  have hbuf := pl.buf_inside
  have hitem := pl.item_before_buf
  have hitem' := pl.itemOffset_pos
  have hlo : (0 : ℤ) < pl.itemOffset := by exact_mod_cast pl.itemOffset_pos
  have hhi : (pl.itemOffset : ℤ) < pl.sizeofString := by omega
  have hr' : r ∈ inorder s'.stringTree := by rwa [hcut.tree]
  have hfind : s'.findString pl (Memory.cstring s'.mem (r + pl.bufOffset)) = some r :=
    (hsorted.find_eq_some_iff (Interned.agrees s' (nul_not_mem_cstring _ _))).mpr ⟨hr', rfl⟩
  obtain ⟨hpos, -⟩ := h.inside_address (h.made r hr) (by omega : (0 : ℤ) < pl.bufOffset) (by omega)
  rw [memfree, memfreeLoop_found hpos.ne' hfind, hcut.count]
  split_ifs with hcount
  · -- the record leaves the tree, and the empty string is not on it
    obtain ⟨turns, hturns⟩ : ∃ turns, s'.stringTree.numNodes = turns + 1 := by
      have hlength := List.length_pos_of_mem hr'
      rw [length_inorder] at hlength
      exact ⟨s'.stringTree.numNodes - 1, by omega⟩
    have hnull : (s'.unlink pl r).mem (r + pl.itemOffset) = 0 := if_pos (by omega)
    have hnone : (s'.unlink pl r).findString pl
        (Memory.cstring (s'.unlink pl r).mem (r + pl.itemOffset)) = none := by
      have hframe : ∀ a, a < r ∨ r + (pl.sizeofString + (s.textOf pl r).length) ≤ a →
          (s'.unlink pl r).mem a = s.mem a := fun a ha ↦
        (memset_of_apart (by omega)).trans (hcut.frame a ha)
      have htexts : ∀ b ∈ inorder (s'.unlink pl r).stringTree,
          b ∈ inorder s.stringTree ∧ (s'.unlink pl r).textOf pl b = s.textOf pl b := by
        intro b hb
        obtain ⟨hne, hb⟩ := (mem_treeRemove hsorted).mp hb
        rw [hcut.tree] at hb
        exact ⟨hb, textOf_of_frame h hr hframe hb hne⟩
      have hsorted' : Sorted (fun b ↦ fold ((s'.unlink pl r).textOf pl b))
          (s'.unlink pl r).stringTree := by
        refine (treeRemove_sorted hsorted r).congr fun b hb ↦ ?_
        obtain ⟨hne, -⟩ := (mem_treeRemove hsorted).mp hb
        rw [(htexts b hb).2, textOf_of_frame h hr hcut.frame (htexts b hb).1 hne]
      rw [cstring_eq_nil hnull]
      refine (hsorted'.find_eq_none_iff (Interned.agrees _ List.not_mem_nil)).mpr fun b hb hfold ↦ ?_
      rw [(htexts b hb).2] at hfold
      exact hempty b (htexts b hb).1 (List.map_eq_nil_iff.mp hfold)
    obtain ⟨hpos', hlt'⟩ := h.inside_address (h.made r hr) hlo hhi
    rw [hturns, memfreeLoop_none fun _ ↦ hnone]
    have hallocator : (s'.unlink pl r).allocator = s.allocator := hcut.allocator
    rw [hallocator, h.inv.memfree_unknown hpos'.le hlt'
      (h.not_handed_inside (h.made r hr) hlo hhi) now, ← hallocator]
    rfl
  · rfl

end Records

/-! ## What becomes of the links -/

section Links

variable {pl : Platform} {x : Scene} {line : List UInt8} {blk : ℤ}

theorem toInt_sub_toInt_add (n : ℤ) : toInt (toInt (n + 1) - 1) = toInt n := by
  unfold toInt
  rw [Int.bmod_sub_bmod, Int.add_sub_cancel]

/-- A line was linked: its record was there with one link less, or it is new. -/
theorem memstrlink_line (h : LinkInv pl x) (hnul : 0 ∉ line)
    (hsane : (Op.memstrlink line blk).Sane pl x.state) :
    ∃ (s : State) (r : ℤ), memstrlink pl x.state line blk = some (s, r + pl.bufOffset) ∧
      Interned pl x.now s (r :: x.clients.records) ∧
      (∀ b, b ∈ inorder s.stringTree ↔ b = r ∨ b ∈ inorder x.state.stringTree) ∧
      (∀ b ∈ inorder x.state.stringTree, s.textOf pl b = x.state.textOf pl b) ∧
      fold (s.textOf pl r) = fold line ∧
      (∀ b ∈ inorder x.state.stringTree, fold (x.state.textOf pl b) = fold line ↔ b = r) ∧
      (∀ b ≠ r, s.count b = x.state.count b) ∧
      if r ∈ inorder x.state.stringTree then toInt (s.count r - 1) = x.state.count r
      else s.count r = 1 := by
  have hinterned := h.scene.interned
  cases hfind : x.state.findString pl line with
  | some r =>
      obtain ⟨hr, hfold⟩ := (hinterned.findString_eq_some_iff hnul).mp hfind
      have hcounted := h.counted r hr
      have hbounded := h.bounded (x.state.textOf pl r)
      refine ⟨_, r, memstrlink_found hfind blk, (hinterned.setCount _ _).mem_records
        (hinterned.made r hr), fun b ↦ ?_, fun b _ ↦ rfl, hfold, fun b hb ↦ ?_, fun b hb ↦ ?_, ?_⟩
      · constructor
        · exact .inr
        · rintro (rfl | hb)
          · exact hr
          · exact hb
      · constructor
        · intro heq
          have hb' := (hinterned.findString_eq_some_iff hnul).mpr ⟨hb, heq⟩
          exact (Option.some.inj (hfind.symm.trans hb')).symm
        · rintro rfl
          exact hfold
      · exact Function.update_of_ne hb _ _
      · rw [if_pos hr]
        have hself : (x.state.setCount r (toInt (x.state.count r + 1))).count r =
            toInt (x.state.count r + 1) := Function.update_self _ _ _
        rw [hself, toInt_sub_toInt_add, toInt_eq_self (by omega) (by omega)]
  | none =>
      have hnone := (hinterned.findString_eq_none_iff hnul).mp hfind
      obtain ⟨s, r, hrun, hnew⟩ := hinterned.memstrlink_new hnul hfind (hsane hfind)
      have hr : r ∉ inorder x.state.stringTree := fun hr ↦ hnew.fresh (hinterned.made r hr)
      refine ⟨s, r, hrun, hnew.after, hnew.mem_tree, hnew.texts, by rw [hnew.text], fun b hb ↦ ?_,
        fun b hb ↦ ?_, ?_⟩
      · refine iff_of_false (hnone b hb) ?_
        rintro rfl
        exact hr hb
      · rw [hnew.count, Function.update_of_ne hb]
      · rw [if_neg hr, hnew.count, Function.update_self]

theorem isSpace_of_isAlpha {c : UInt8} (hc : isAlpha c = true) : isSpace c = false := by
  unfold isAlpha isSpace at *
  simp only [decide_eq_true_eq, decide_eq_false_iff_not, UInt8.le_iff_toNat_le,
    ← UInt8.toNat_inj, UInt8.reduceToNat] at *
  omega

/-- Every spelling of a line that begins with a letter begins with a letter. -/
theorem first_of_fold {text : List UInt8} (hfirst : line.head?.any isAlpha = true)
    (hfold : fold text = fold line) : text ≠ [] ∧ ∀ c ∈ text.head?, isSpace c = false := by
  cases line with
  | nil => cases hfirst
  | cons d line =>
      cases text with
      | nil => cases hfold
      | cons c text =>
          obtain ⟨hhead, -⟩ := List.cons.inj hfold
          refine ⟨List.cons_ne_nil _ _, ?_⟩
          rintro _ ⟨⟩
          rw [← isSpace_toLower, UInt8.toNat_inj.mp hhead, isSpace_toLower]
          exact isSpace_of_isAlpha hfirst

/-- A line that begins with a letter, in any run of careful clients.  Whoever has linked the line, in
any case of its letters, is left with its first word, and nobody else is; the tree stays in order
exactly if nobody has linked a string from that word up to the line; and then, with the empty string
not linked, the line is freed so that all records and their counts are as before. -/
theorem shared_line (hrun : StringRun pl (fun x op ↦ op.Careful pl x) x) (hnul : 0 ∉ line)
    (hfirst : line.head?.any isAlpha = true) (hsane : (Op.memstrlink line blk).Sane pl x.state)
    (fuel : ℕ) (fillWords : Heap ℕ (List UInt8) Unit) {later : ℤ} (hle : x.now ≤ later) :
    ∃ (s s' : State) (r : ℤ) (argument : Argument),
      memstrlink pl x.state line blk = some (s, r + pl.bufOffset) ∧
      cutString (fuel + 1) fillWords s (r + pl.bufOffset) = some (s', argument) ∧
      (∀ l ∈ x.clients.links, Memory.cstring s'.mem l.1 =
        if fold l.2 = fold line then verbOf line else l.2) ∧
      (Sorted (fun b ↦ fold (s'.textOf pl b)) s'.stringTree ↔
        ∀ l ∈ x.clients.links, fold l.2 < fold line → fold l.2 < fold (verbOf line)) ∧
      (Sorted (fun b ↦ fold (s'.textOf pl b)) s'.stringTree → outstanding x.clients [] = 0 →
        ∃ s'', memfree pl s' later (r + pl.bufOffset) = some s'' ∧
          (∀ b, b ∈ inorder s''.stringTree ↔ b ∈ inorder x.state.stringTree) ∧
          ∀ b ∈ inorder x.state.stringTree, s''.count b = x.state.count b) := by
  have h := hrun.linkInv
  obtain ⟨s, r, hlink, hinterned, hmem, htexts, hfold, hsame, hcounts, hcount⟩ :=
    memstrlink_line h hnul hsane
  have hr : r ∈ inorder s.stringTree := (hmem r).mpr (.inl rfl)
  obtain ⟨s', argument, hcutString, hcut⟩ : ∃ s' argument,
      cutString (fuel + 1) fillWords s (r + pl.bufOffset) = some (s', argument) ∧
        LineCut pl s s' r := by
    obtain ⟨hne, hspace⟩ := first_of_fold hfirst hfold
    exact cutString_spec hinterned hr fuel fillWords hspace hne
  have hverb : fold (s'.textOf pl r) = fold (verbOf line) := by
    rw [hcut.text, verbOf_congr hfold]
  have hothers : ∀ b ∈ inorder x.state.stringTree, b ≠ r →
      s'.textOf pl b = x.state.textOf pl b := fun b hb hne ↦
    (textOf_of_frame hinterned hr hcut.frame ((hmem b).mpr (.inr hb)) hne).trans (htexts b hb)
  refine ⟨s, s', r, argument, hlink, hcutString, fun l hl ↦ ?_, ?_, fun hsorted hnil ↦ ?_⟩
  · obtain ⟨b, hb, haddr, htext⟩ := h.linked l hl
    have hiff := hsame b hb
    rw [htext] at hiff
    rw [haddr]
    split_ifs with heq
    · rw [hiff.mp heq]
      exact hcut.text.trans (verbOf_congr hfold)
    · exact (hothers b hb fun hbr ↦ heq (hiff.mpr hbr)).trans htext
  · have hle : fold (s'.textOf pl r) ≤ fold (s.textOf pl r) := by
      rw [hverb, hfold]
      exact not_lt.mp (fold_verbOf_initial line).le
    rw [hcut.tree, hinterned.sorted.lower_iff hr hle fun b hb hne ↦ by
      rw [textOf_of_frame hinterned hr hcut.frame hb hne], hverb, hfold]
    constructor
    · intro hpass l hl hlt
      obtain ⟨b, hb, -, htext⟩ := h.linked l hl
      rw [← htexts b hb] at htext
      rw [← htext] at hlt ⊢
      exact hpass b ((hmem b).mpr (.inr hb)) hlt
    · intro hpass b hb hlt
      rcases (hmem b).mp hb with rfl | hb
      · exact absurd (hfold ▸ hlt) (lt_irrefl _)
      · obtain ⟨l, hl, htext⟩ := outstanding_pos.mp (h.counted b hb).2
        rw [htexts b hb, ← htext] at hlt ⊢
        exact hpass l hl hlt
  · have hempty : ∀ b ∈ inorder s.stringTree, s.textOf pl b ≠ [] := by
      intro b hb htext
      rcases (hmem b).mp hb with rfl | hb
      · exact (first_of_fold hfirst hfold).1 htext
      · have hpos := (h.counted b hb).2
        rw [← htexts b hb, htext, hnil] at hpos
        exact absurd hpos (lt_irrefl 0)
    refine ⟨_, memfree_lineCut (hinterned.mono hle) hr hcut hsorted hempty, ?_⟩
    split_ifs at hcount with hold
    · have hpos := (h.counted r hold).1
      have hpos' := (h.counted r hold).2
      rw [hcount, if_neg (by omega)]
      refine ⟨fun b ↦ ?_, fun b hb ↦ ?_⟩
      · change b ∈ inorder s'.stringTree ↔ _
        rw [hcut.tree, hmem]
        exact or_iff_right_of_imp fun hbr ↦ hbr ▸ hold
      · rcases eq_or_ne b r with rfl | hne
        · exact Function.update_self _ _ _
        · exact (Function.update_of_ne hne _ _).trans ((congrFun hcut.count b).trans (hcounts b hne))
    · rw [hcount, show toInt (1 - 1) = 0 from rfl, if_pos le_rfl]
      refine ⟨fun b ↦ ?_, fun b hb ↦ ?_⟩
      · refine (mem_treeRemove hsorted).trans ?_
        rw [hcut.tree, hmem]
        constructor
        · rintro ⟨hne, hbr | hb⟩
          · exact absurd hbr hne
          · exact hb
        · exact fun hb ↦ ⟨fun hbr ↦ hold (hbr ▸ hb), .inr hb⟩
      · have hne : b ≠ r := fun hbr ↦ hold (hbr ▸ hb)
        exact (Function.update_of_ne hne _ _).trans ((congrFun hcut.count b).trans (hcounts b hne))

/-- Who has linked `AB` reads `ab` after the line `ab`. -/
theorem shared_line_ab : ∃ x,
    replay lp64 (fun x op ↦ op.Careful lp64 x) (Scene.initial 0) [.memstrlink [65, 66] 4096] =
      some x ∧
    x.clients.links.map Prod.snd = [[65, 66]] ∧
    ∃ (s s' : State) (r : ℤ) (argument : Argument),
      memstrlink lp64 x.state [97, 98] 0 = some (s, r + lp64.bufOffset) ∧
      cutString 1 fillItems s (r + lp64.bufOffset) = some (s', argument) ∧
      ∀ l ∈ x.clients.links, Memory.cstring s'.mem l.1 = [97, 98] := by
  obtain ⟨x, hx⟩ := Option.isSome_iff_exists.mp (by decide +kernel :
    (replay lp64 (fun x op ↦ op.Careful lp64 x) (Scene.initial 0)
      [.memstrlink [65, 66] 4096]).isSome = true)
  have hfacts : (replay lp64 (fun x op ↦ op.Careful lp64 x) (Scene.initial 0)
      [.memstrlink [65, 66] 4096]).any (fun x ↦ (Op.memstrlink [97, 98] 0).Sane lp64 x.state ∧
        x.clients.links.map Prod.snd = [[65, 66]]) = true := by decide +kernel
  simp only [hx, Option.any_some, decide_eq_true_eq] at hfacts
  obtain ⟨hsane, hlinks⟩ := hfacts
  obtain ⟨s, s', r, argument, hlink, hcut, htexts, -⟩ :=
    shared_line (stringRun_of_replay hx) (by decide) (by decide) hsane 0 fillItems le_rfl
  refine ⟨x, hx, hlinks, s, s', r, argument, hlink, hcut, fun l hl ↦ ?_⟩
  have htext : l.2 = [65, 66] := by
    have hmem := List.mem_map_of_mem (f := Prod.snd) hl
    rwa [hlinks, List.mem_singleton] at hmem
  rw [htexts l hl, htext]
  decide

end Links

end HavokMud.Commands
