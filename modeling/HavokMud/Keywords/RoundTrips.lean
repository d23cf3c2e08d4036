import HavokMud.Keywords.Splitting
import HavokMud.Memory.StringRuns

/-!
# When keywords survive splitting and joining

A word that ends at a delimiter comes back longer by one.  So only a string that ends with its only
word is split as it is meant to be, and of the lists of keywords only those of at most one word come
back from `KeywordsToString` and `StringToKeywords`.
-/

namespace HavokMud.Keywords

open BTree Objects Sequence

section Words

variable {strings : Strings} {string gap word tail text : Text} {key key' : KeywordList} {c : UInt8}
  {turns : ℕ} {rest : Text}

end Words

/-! ## Joining -/

section Joining

variable {strings : Strings} {key : KeywordList} {words : List Word} {size : ℕ}
  {separator string result : Word}

end Joining

/-! ## The strings in memory -/

section Interned

variable {pl : Memory.Platform} {now : ℤ} {s : Memory.State} {records : List ℤ}

/-- The strings on the string tree. -/
def internedStrings (h : Memory.Interned pl now s records) : Strings where
  texts := (SearchTree.inorder s.stringTree).map fun r ↦
    ⟨s.textOf pl r, Memory.nul_not_mem_cstring _ _⟩
  distinct := by
    rw [List.map_map]
    exact (List.pairwise_map.mpr h.sorted).imp fun hlt ↦ hlt.ne

theorem noVariant_internedStrings (h : Memory.Interned pl now s records) (text : Text) :
    (internedStrings h).NoVariant text ↔ Memory.NoVariant pl s text := by
  simp [Strings.NoVariant, internedStrings, Memory.NoVariant]

/-- The allocator's `memstrnlink` returns a text of the same letters, and the one it was asked for
exactly if `Strings.memstrlink` does. -/
theorem memstrnlink_interned (h : Memory.Interned pl now s records) {orig : Text} (hnul : 0 ∉ orig)
    {len : ℕ} (hlen : 0 < len) {blk blk' : ℤ}
    (hsane : (Memory.Op.memstrnlink orig len blk blk').Sane pl s) :
    ∃ (s' : Memory.State) (r : ℤ),
      Memory.memstrnlink pl s now orig len blk blk' = some (s', r + pl.bufOffset) ∧
      fold (s'.textOf pl r) =
        fold ((internedStrings h).memstrlink (wordOf (orig.take len))).1 ∧
      (s'.textOf pl r = orig.take len ↔
        (internedStrings h).memstrlink (wordOf (orig.take len)) = wordOf (orig.take len)) := by
  have htake : 0 ∉ orig.take len := fun hmem ↦ hnul (List.mem_of_mem_take hmem)
  obtain ⟨s', r, hrun, hlinked⟩ := h.memstrnlink hnul hlen hsane
  refine ⟨s', r, hrun, ?_, ?_⟩
  · rw [fold_memstrlink, wordOf_eq htake]
    exact hlinked.fold_eq
  · rw [memstrlink_eq_iff, wordOf_eq htake, noVariant_internedStrings]
    exact hlinked.text_iff

end Interned

/-! ## When the functions do what they are meant to do -/

/-- No strings. -/
def noStrings : Strings :=
  ⟨[], List.nodup_nil⟩

end HavokMud.Keywords
