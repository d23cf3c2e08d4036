import HavokMud.Objects.KeywordRuns
import HavokMud.Objects.KeywordSearch
import Mathlib.Algebra.Order.BigOperators.Group.List

/-!
# What the keyword search finds

The first object of the first word is found, and returned if it has the other words.  To go on from
an object the search reads the pointers `containItem` and `contentItem`, which are NULL, as the
links of an item, and stops.  To go on inside of `objectKeywordFindFirst` it reads the links of the
global list, and where these end it starts again.
-/

namespace HavokMud.Objects.KeywordSearch

open BinaryTree SearchTree BTree

variable {d : Index} {text : ℕ → Word} {M M' : Memory} {fuel p : ℕ}

namespace Index

/-- The recursion and the loops of the trees come to their ends. -/
def Fits (d : Index) (fuel : ℕ) : Prop :=
  0 < fuel ∧ d.outer.numNodes ≤ fuel ∧ ∀ p ∈ inorder d.outer, (d.inner p).numNodes ≤ fuel

theorem exists_fits (d : Index) : ∃ n, ∀ fuel ≥ n, d.Fits fuel := by
  refine ⟨1 + d.outer.numNodes + ((inorder d.outer).map fun p ↦ (d.inner p).numNodes).sum,
    fun fuel hfuel ↦ ⟨by omega, by omega, fun p hp ↦ ?_⟩⟩
  have hle := List.single_le_sum (l := (inorder d.outer).map fun p ↦ (d.inner p).numNodes)
    (fun _ _ ↦ Nat.zero_le _) _ (List.mem_map_of_mem hp)
  omega

namespace Holds

theorem eq_of_word (h : d.Holds text M) {p p' : ℕ} (hp : p ∈ inorder d.outer)
    (hp' : p' ∈ inorder d.outer) (hword : fold (d.word p).1 = fold (d.word p').1) : p = p' := by
  by_contra hne
  rcases List.pairwise_iff_getElem.mp h.byWord with hpairs
  obtain ⟨i, hi, rfl⟩ := List.getElem_of_mem hp
  obtain ⟨j, hj, rfl⟩ := List.getElem_of_mem hp'
  rcases lt_trichotomy i j with hij | rfl | hij
  · exact (hpairs i j hi hj hij).ne hword
  · exact hne rfl
  · exact (hpairs j i hj hi hij).ne hword.symm

/-- The links of an item of an object. -/
theorem counted_links (h : d.Holds text M) (hcounted : d.Counted M M') {q : ℕ}
    (hq : q ∈ d.innerItems) : M' q = M q ∧ M' (q + 8) = M (q + 8) ∧ M' (q + 16) = M (q + 16) := by
  have hsame : ∀ x ∈ [q, q + 8, q + 16, q + 24, q + 32, M (q + 32)], M' x = M x := by
    intro x hx
    have hread : x ∈ d.reads M := List.mem_append_right _ (List.mem_flatMap.mpr ⟨q, hq, hx⟩)
    refine hcounted x fun q' hq' ↦ ?_
    have hobject := h.apart.objects q' hq' x hread
    refine ⟨fun heq ↦ h.apart.counts q' hq' (heq ▸ hread), by omega, by omega⟩
  exact ⟨hsame q (by simp), hsame _ (by simp), hsame _ (by simp)⟩

theorem counted_subtree (h : d.Holds text M) (hcounted : d.Counted M M') {parent r : Option ℕ}
    {t : BinaryTree ℕ} (hsub : Subtree (graph id M) parent r t)
    (hmem : ∀ q ∈ inorder t, q ∈ d.innerItems) : Subtree (graph id M') parent r t := by
  refine hsub.congr ?_ ?_ ?_
  · exact fun q hq ↦ congrArg pointer (h.counted_links hcounted (hmem q hq)).1
  · exact fun q hq ↦ congrArg pointer (h.counted_links hcounted (hmem q hq)).2.1
  · exact fun q hq ↦ congrArg pointer (h.counted_links hcounted (hmem q hq)).2.2

/-- `BalancedBTreeUnvisit` writes counts. -/
theorem unvisit (h : d.Holds text M) {parent r : Option ℕ} {t : BinaryTree ℕ}
    (hsub : Subtree (graph id M) parent r t) (hmem : ∀ q ∈ inorder t, q ∈ d.innerItems)
    (hfuel : t.numNodes ≤ fuel) :
    ∃ M', balancedBTreeUnvisit fuel r M = some M' ∧ d.Counted M M' := by
  induction t generalizing parent r M fuel with
  | nil =>
      obtain rfl : r = none := hsub
      refine ⟨M, ?_, .refl d M⟩
      cases fuel <;> rfl
  | node q l r ihl ihr =>
      obtain ⟨rfl, -, -⟩ := subtree_node.mp hsub
      simp only [numNodes] at hfuel
      obtain ⟨fuel, rfl⟩ : ∃ less, fuel = less + 1 := ⟨fuel - 1, by omega⟩
      have hset : d.Counted M (setVisited M q 0) :=
        .setVisited (hmem q (by simp)) 0 (.inl rfl)
      have hmeml : ∀ q ∈ inorder l, q ∈ d.innerItems := fun x hx ↦ hmem x (by simp [hx])
      have hmemr : ∀ q ∈ inorder r, q ∈ d.innerItems := fun x hx ↦ hmem x (by simp [hx])
      have hsub₁ := subtree_node.mp (h.counted_subtree hset hsub hmem)
      have hfuell : l.numNodes ≤ fuel := by omega
      have hfuelr : r.numNodes ≤ fuel := by omega
      obtain ⟨M₁, hrun₁, hcounted₁⟩ := ihl (h.counted hset) hsub₁.2.2.1 hmeml hfuell
      have htwo := hset.trans hcounted₁
      have hsub₂ := subtree_node.mp (h.counted_subtree htwo hsub hmem)
      obtain ⟨M₂, hrun₂, hcounted₂⟩ := ihr (h.counted htwo) hsub₂.2.2.2 hmemr hfuelr
      refine ⟨M₂, ?_, htwo.trans hcounted₂⟩
      simp only [balancedBTreeUnvisit]
      have hrun₁' : balancedBTreeUnvisit fuel (pointer (setVisited M q 0 q)) (setVisited M q 0) =
        some M₁ := hrun₁
      have hrun₂' : balancedBTreeUnvisit fuel (pointer (M₁ (q + 8))) M₁ = some M₂ := hrun₂
      rw [hrun₁', Option.bind_eq_bind, Option.bind_some, hrun₂']

/-- Without an object the search starts with the least one of the first word. -/
theorem nextItem_least (h : d.Holds text M) (hp : p ∈ inorder d.outer) (hfits : d.Fits fuel)
    (offset : ℕ) :
    ∃ M', nextItem fuel offset (d.sub p) 0 M = some (M', least (d.inner p)) ∧ d.Counted M M' := by
  have hmem : ∀ q ∈ inorder (d.inner p), q ∈ d.innerItems := fun q hq ↦ mem_innerItems hp hq
  have hroot : (graph id M).root (d.sub p) = pointer (M (d.sub p + 24)) := rfl
  obtain ⟨M', hrun, hcounted⟩ := h.unvisit (h.inner p hp).links hmem (hfits.2.2 p hp)
  have hleast := balancedBTreeFindLeast_eq ((h.counted hcounted).inner p hp).links (hfits.2.2 p hp)
  refine ⟨M', ?_, hcounted⟩
  have hsub : pointer (d.sub p) = some (d.sub p) := pointer_eq_some.mpr ⟨(h.subs p hp).2, rfl⟩
  rw [hroot] at hrun
  have hleast' : balancedBTreeFindLeast fuel (M' (d.sub p + 24)) M' = some (least (d.inner p)) :=
    hleast
  simp [nextItem, hsub, hrun, hleast']

/-- What is taken for the item after that of an object has no links. -/
theorem nextItem_field (h : d.Holds text M) (hp : p ∈ inorder d.outer) (hfits : d.Fits fuel) {q : ℕ}
    (hq : q ∈ d.innerItems) :
    ∃ M', nextItem fuel keywordItemOffset (d.sub p) (d.object q) M = some (M', none) ∧
      d.Counted M M' := by
  have hset := Counted.setVisited (M := M) hq (visited M (d.object q + 136) + 1) (.inr (.inr rfl))
  have hcontain := h.counted_object hset hq (n := 144) (by omega) (by omega) (by omega)
  have hcontent := h.counted_object hset hq (n := 152) (by omega) (by omega) (by omega)
  rw [h.containItem q hq] at hcontain
  rw [h.contentItem q hq] at hcontent
  refine ⟨_, ?_, hset⟩
  obtain ⟨fuel, rfl⟩ : ∃ less, fuel = less + 1 := ⟨fuel - 1, by have := hfits.1; omega⟩
  have hobject : d.object q ≠ 0 := (h.objects q hq).2.1.ne'
  have hsub := (h.subs p hp).2
  simp [nextItem, hobject, balancedBTreeFindNext, hsub, findNextLoop, visitNext, keywordItemOffset,
    Nat.add_assoc, hcontain, hcontent, pointer]

/-! ## Turns of the loop -/

variable {first : Word} {rest : List Word} {treeA obj i offset : ℕ}

/-- A turn for the first word takes the next item of its tree. -/
theorem loop_zero (h : d.Holds text M) (hp : p ∈ inorder d.outer)
    (hfirst : fold (d.word p).1 = fold first.1) (hfits : d.Fits fuel)
    (htree : treeA = 0 ∨ treeA = d.sub p) (turns : ℕ) :
    keywordLoop fuel text d.tree offset ⟨first :: rest, false⟩ (turns + 1) 0 treeA obj M =
      (nextItem fuel offset (d.sub p) obj M).bind fun result ↦
        match result.2 with
        | none => some (result.1, 0)
        | some item =>
            keywordLoop fuel text d.tree offset ⟨first :: rest, false⟩ turns 1 (d.sub p)
              (result.1 (item + 24)) result.1 := by
  have hsub : d.sub p ≠ 0 := (h.subs p hp).2
  have hexact : (⟨first :: rest, false⟩ : Keywords).partialMatch = false := rfl
  have hfound : KeywordSearch.findWord fuel text d.tree ⟨first :: rest, false⟩ first M =
      some (some (d.sub p)) := by
    rcases h.findWord hexact hfits.2.1 first with
      ⟨p', hp', hword, hrun⟩ | ⟨hnone, -⟩
    · obtain rfl := h.eq_of_word hp' hp (hword.trans hfirst.symm)
      exact hrun
    · exact absurd hfirst (hnone p hp)
  rcases htree with rfl | rfl
  · simp only [keywordLoop, List.getElem?_cons_zero, if_true, hfound]
    rfl
  · simp only [keywordLoop, List.getElem?_cons_zero, if_true, hsub, if_false]
    rfl

/-- A turn for a later word goes on if the object has it, and starts again with the object if
not. -/
theorem loop_later (h : d.Holds text M) (hfits : d.Fits fuel) {key : Keywords}
    (hkey : key.partialMatch = false) {word : Word} (hword : key.words[i]? = some word)
    (hi : i ≠ 0) (hobj : obj < 2 ^ 63) (turns : ℕ) :
    (d.Lists word obj → keywordLoop fuel text d.tree offset key (turns + 1) i treeA obj M =
        keywordLoop fuel text d.tree offset key turns (i + 1) treeA obj M) ∧
      (¬ d.Lists word obj → keywordLoop fuel text d.tree offset key (turns + 1) i treeA obj M =
        keywordLoop fuel text d.tree offset key turns 0 treeA obj M) := by
  rcases h.findWord hkey hfits.2.1 word with ⟨p, hp, hfold, hrun⟩ | ⟨hnone, hrun⟩
  · rcases h.findObject hp (hfits.2.2 p hp) hobj with ⟨q, hq, hobject, hrun'⟩ | ⟨hnone, hrun'⟩
    · have hturn : keywordLoop fuel text d.tree offset key (turns + 1) i treeA obj M =
          keywordLoop fuel text d.tree offset key turns (i + 1) treeA obj M := by
        simp [keywordLoop, hword, hi, hrun, hrun']
      exact ⟨fun _ ↦ hturn, fun hlists ↦ absurd ⟨p, hp, hfold, q, hq, hobject⟩ hlists⟩
    · have hturn : keywordLoop fuel text d.tree offset key (turns + 1) i treeA obj M =
          keywordLoop fuel text d.tree offset key turns 0 treeA obj M := by
        simp [keywordLoop, hword, hi, hrun, hrun']
      refine ⟨?_, fun _ ↦ hturn⟩
      rintro ⟨p', hp', hfold', q, hq, hobject⟩
      obtain rfl := h.eq_of_word hp' hp (hfold'.trans hfold.symm)
      exact absurd hobject (hnone q hq)
  · have hturn : keywordLoop fuel text d.tree offset key (turns + 1) i treeA obj M =
        keywordLoop fuel text d.tree offset key turns 0 treeA obj M := by
      simp [keywordLoop, hword, hi, hrun]
    refine ⟨?_, fun _ ↦ hturn⟩
    rintro ⟨p, hp, hfold, -⟩
    exact absurd hfold (hnone p hp)

/-- An object that has the remaining words is returned. -/
theorem loop_matches (h : d.Holds text M) (hfits : d.Fits fuel) {key : Keywords}
    (hkey : key.partialMatch = false) (hobj : obj < 2 ^ 63) (hi : i ≠ 0)
    (hlists : ∀ j ≥ i, ∀ word, key.words[j]? = some word → d.Lists word obj) {k : ℕ}
    (hk : key.words.length ≤ i + k) (turns : ℕ) :
    keywordLoop fuel text d.tree offset key (k + 1 + turns) i treeA obj M = some (M, obj) := by
  induction k generalizing i with
  | zero =>
      have hend : key.words[i]? = none := List.getElem?_eq_none hk
      rw [Nat.zero_add, Nat.add_comm]
      simp only [keywordLoop, hend]
  | succ k ih =>
      rw [show k + 1 + 1 + turns = k + 1 + turns + 1 by omega]
      cases hword : key.words[i]? with
      | none => simp only [keywordLoop, hword]
      | some word =>
          rw [(h.loop_later hfits hkey hword hi hobj _).1 (hlists i le_rfl word hword)]
          exact ih (by omega) (fun j hj ↦ hlists j (by omega)) (by omega)

end Holds

end Index

/-! ## Enumerating the matches -/

/-- The calls come to an end, and return the objects with the property, each once. -/
def Enumerates (text : ℕ → Word) (tree : ℕ) (key : Keywords) (M : Memory) (P : ℕ → Prop) : Prop :=
  ∃ objs : List ℕ, objs.Nodup ∧ (∀ obj, obj ∈ objs ↔ P obj) ∧
    ∃ n, ∀ fuel ≥ n, objectsWithKeywords fuel text tree key M = some objs

theorem Enumerates.mem_iff {tree : ℕ} {key : Keywords} {P : ℕ → Prop}
    (h : Enumerates text tree key M P) {objs : List ℕ} {n : ℕ}
    (hrun : ∀ fuel ≥ n, objectsWithKeywords fuel text tree key M = some objs) (obj : ℕ) :
    obj ∈ objs ↔ P obj := by
  obtain ⟨objs', -, hmem, n', hrun'⟩ := h
  obtain rfl : objs = objs' := by
    have hone := hrun (max n n') (le_max_left n n')
    rw [hrun' (max n n') (le_max_right n n')] at hone
    exact (Option.some.inj hone).symm
  exact hmem obj

namespace Index

variable {first : Word} {rest : List Word} {a L : ℕ}

namespace Holds

theorem not_lists_zero (h : d.Holds text M) (word : Word) : ¬ d.Lists word 0 := by
  rintro ⟨p, hp, -, q, hq, hzero⟩
  have hpos := (h.objects q (mem_innerItems hp hq)).2.1
  omega

/-- The objects of a word are those of one tree, and the first of them has the least address. -/
theorem exists_least (h : d.Holds text M) {word : Word} {obj : ℕ} (hlists : d.Lists word obj) :
    ∃ p ∈ inorder d.outer, fold (d.word p).1 = fold word.1 ∧
      ∃ q ∈ inorder (d.inner p), least (d.inner p) = some q ∧
        ∀ o, d.Lists word o → d.object q ≤ o := by
  obtain ⟨p, hp, hfold, q, hq, rfl⟩ := hlists
  refine ⟨p, hp, hfold, ?_⟩
  rw [least_eq_head?]
  obtain ⟨q₀, qs, hinorder⟩ := List.exists_cons_of_ne_nil (List.ne_nil_of_mem hq)
  have hsorted : (q₀ :: qs).Pairwise fun q q' ↦ d.object q < d.object q' :=
    hinorder ▸ h.byAddress p hp
  refine ⟨q₀, by simp [hinorder], by simp [hinorder], ?_⟩
  rintro o ⟨p', hp', hfold', q', hq', rfl⟩
  obtain rfl := h.eq_of_word hp' hp (hfold'.trans hfold.symm)
  rw [hinorder] at hq'
  rcases List.mem_cons.mp hq' with rfl | hlater
  · exact le_rfl
  · exact ((List.pairwise_cons.mp hsorted).1 q' hlater).le

/-- No object has the first word. -/
theorem run_none (h : d.Holds text M) (hnone : ∀ obj, ¬ d.Lists first obj) :
    ∃ n, ∀ fuel ≥ n, objectsWithKeywords fuel text d.tree ⟨first :: rest, false⟩ M = some [] := by
  obtain ⟨n, hn⟩ := d.exists_fits
  refine ⟨n + 1, fun fuel hfuel ↦ ?_⟩
  have hfits : d.Fits fuel := hn fuel (by omega)
  obtain ⟨turns, rfl⟩ : ∃ turns, fuel = turns + 1 := ⟨fuel - 1, by omega⟩
  have hexact : (⟨first :: rest, false⟩ : Keywords).partialMatch = false := rfl
  have hfind : ∃ M', objectKeywordFindFirst (turns + 1) text d.tree ⟨first :: rest, false⟩ M =
      some (M', 0) := by
    rcases h.findWord hexact hfits.2.1 first with
      ⟨p, hp, hfold, -⟩ | ⟨-, hrun⟩
    · obtain ⟨M', hnext, -⟩ := h.nextItem_least hp hfits 0
      have hempty : least (d.inner p) = none := by
        rw [least_eq_head?, List.head?_eq_none_iff, List.eq_nil_iff_forall_not_mem]
        exact fun q hq ↦ hnone _ ⟨p, hp, hfold, q, hq, rfl⟩
      refine ⟨M', ?_⟩
      rw [objectKeywordFindFirst, objectKeywordFindNext, h.loop_zero hp hfold hfits (.inl rfl),
        hnext, hempty]
      rfl
    · refine ⟨M, ?_⟩
      simp [objectKeywordFindFirst, objectKeywordFindNext, keywordLoop, hrun]
  obtain ⟨M', hfind⟩ := hfind
  simp [objectsWithKeywords, hfind, objectsFrom]

/-- The object of least address with the first word has the other words: it is the only one that is
returned. -/
theorem run_least (h : d.Holds text M) (hmatches : d.Matches (first :: rest) a)
    (hleast : ∀ obj, d.Lists first obj → a ≤ obj) :
    ∃ n, ∀ fuel ≥ n, objectsWithKeywords fuel text d.tree ⟨first :: rest, false⟩ M = some [a] := by
  obtain ⟨p, hp, hfold, q, hq, hhead, hle⟩ := h.exists_least (hmatches first (by simp))
  obtain rfl : d.object q = a :=
    le_antisymm (hle a (hmatches first (by simp))) (hleast _ ⟨p, hp, hfold, q, hq, rfl⟩)
  have hmem := mem_innerItems hp hq
  obtain ⟨n, hn⟩ := d.exists_fits
  refine ⟨n + rest.length + 3, fun fuel hfuel ↦ ?_⟩
  have hfits : d.Fits fuel := hn fuel (by omega)
  obtain ⟨M₁, hnext₁, hcounted₁⟩ := h.nextItem_least hp hfits 0
  have h₁ := h.counted hcounted₁
  obtain ⟨hitem, hpos, hlt⟩ := h₁.objects q hmem
  have hfirst : objectKeywordFindFirst fuel text d.tree ⟨first :: rest, false⟩ M =
      some (M₁, d.object q) := by
    obtain ⟨turns, rfl⟩ : ∃ turns, fuel = rest.length + 1 + turns + 1 :=
      ⟨fuel - rest.length - 2, by omega⟩
    rw [objectKeywordFindFirst, objectKeywordFindNext, h.loop_zero hp hfold hfits (.inl rfl),
      hnext₁, hhead]
    simp only [Option.bind_some, hitem]
    refine h₁.loop_matches hfits rfl hlt one_ne_zero (fun j _ word hword ↦ ?_) (k := rest.length)
      (by simp [Nat.add_comm]) turns
    exact hmatches word (List.mem_of_getElem? hword)
  obtain ⟨M₂, hnext₂, -⟩ := h₁.nextItem_field hp hfits hmem
  have hsecond : objectKeywordFindNext fuel text d.tree keywordItemOffset ⟨first :: rest, false⟩
      (d.object q) M₁ = some (M₂, 0) := by
    obtain ⟨turns, rfl⟩ : ∃ turns, fuel = turns + 1 := ⟨fuel - 1, by omega⟩
    rw [objectKeywordFindNext, h₁.loop_zero hp hfold hfits (.inl rfl), hnext₂]
    rfl
  have hcalls : objectsFrom fuel text d.tree ⟨first :: rest, false⟩ fuel (d.object q) M₁ =
      some [d.object q] := by
    obtain ⟨calls, hcalls⟩ : ∃ calls, fuel = calls + 2 := ⟨fuel - 2, by omega⟩
    rw [show objectsFrom fuel text d.tree ⟨first :: rest, false⟩ fuel (d.object q) M₁ =
      objectsFrom fuel text d.tree ⟨first :: rest, false⟩ (calls + 2) (d.object q) M₁ by
        rw [← hcalls]]
    simp [objectsFrom, hpos.ne', hsecond]
  simp [objectsWithKeywords, hfirst, hcalls]

end Holds

/-- The object is the last of the global list: what is taken for its item leads to the list, and
from there to no object. -/
structure Last (d : Index) (text : ℕ → Word) (M : Memory) (a L : ℕ) : Prop where
  holds : d.Holds text M
  object : ∃ q ∈ d.innerItems, d.object q = a
  next : M (a + 8) = 0
  list : M (a + 16) = L
  apart : ∀ q ∈ d.innerItems, q + 48 < L ∧ d.object q + 192 ≤ L
  count : visited M L = 0
  item : M (L + 24) = 0

namespace Last

theorem counted (h : d.Last text M a L) (hcounted : d.Counted M M') : d.Last text M' a L := by
  have hlist : ∀ n, M' (L + n) = M (L + n) := by
    refine fun n ↦ hcounted _ fun q hq ↦ ?_
    have hapart := h.apart q hq
    omega
  obtain ⟨q, hq, rfl⟩ := h.object
  refine ⟨h.holds.counted hcounted, ⟨q, hq, rfl⟩, ?_, ?_, h.apart, ?_, (hlist 24).trans h.item⟩
  · rw [h.holds.counted_object hcounted hq (by omega) (by omega) (by omega), h.next]
  · rw [h.holds.counted_object hcounted hq (by omega) (by omega) (by omega), h.list]
  · rw [visited, hlist 48]
    exact h.count

/-- To go on from the object the search goes to the list. -/
theorem nextItem_list (h : d.Last text M a L) (hp : p ∈ inorder d.outer) (hfits : d.Fits fuel) :
    ∃ M', nextItem fuel 0 (d.sub p) a M = some (M', some L) ∧ d.Counted M M' := by
  obtain ⟨q, hq, rfl⟩ := h.object
  have hset := Counted.setVisited (M := M) hq (visited M (d.object q) + 1) (.inr (.inl rfl))
  have hlast := h.counted hset
  have hL : L ≠ 0 := by
    have hapart := h.apart q hq
    omega
  refine ⟨_, ?_, hset⟩
  obtain ⟨fuel, rfl⟩ : ∃ less, fuel = less + 1 := ⟨fuel - 1, by have := hfits.1; omega⟩
  have hobject : d.object q ≠ 0 := (h.holds.objects q hq).2.1.ne'
  have hsub := (h.holds.subs p hp).2
  simp [nextItem, hobject, balancedBTreeFindNext, hsub, findNextLoop, visitNext, hlast.next,
    hlast.list, hlast.count, pointer, hL]

/-- The first object lacks a word and is the last of the global list: the search goes from it to the
list and from there to it, and never returns. -/
theorem loop_none (h : d.Last text M a L) (hp : p ∈ inorder d.outer)
    (hfirst : fold (d.word p).1 = fold first.1) (hfits : d.Fits fuel) {q : ℕ}
    (hhead : least (d.inner p) = some q) (hq : d.object q = a) {k : ℕ} {word : Word}
    (hk : (first :: rest)[k]? = some word) (hlacks : ¬ d.Lists word a) {turns i treeA obj : ℕ}
    (hi : i ≤ k) (htree : treeA = 0 ∨ treeA = d.sub p) (hobj : obj = 0 ∨ obj = a) :
    keywordLoop fuel text d.tree 0 ⟨first :: rest, false⟩ turns i treeA obj M = none := by
  have hmem : q ∈ d.innerItems := by
    rw [least_eq_head?] at hhead
    exact Holds.mem_innerItems hp (List.mem_of_mem_head? hhead)
  have hlists : d.Lists first a := by
    rw [least_eq_head?] at hhead
    exact ⟨p, hp, hfirst, q, List.mem_of_mem_head? hhead, hq⟩
  have hkpos : 1 ≤ k := by
    by_contra hzero
    obtain rfl : k = 0 := by omega
    obtain rfl : first = word := by simpa using hk
    exact hlacks hlists
  -- The state of the loop is the same after each round, but for the counts.
  induction turns generalizing i treeA obj M with
  | zero => rfl
  | succ turns ih =>
      rcases Nat.eq_zero_or_pos i with rfl | hpos
      · rw [h.holds.loop_zero hp hfirst hfits htree]
        rcases hobj with rfl | rfl
        · obtain ⟨M', hnext, hcounted⟩ := h.holds.nextItem_least hp hfits 0
          have hitem := ((h.holds.counted hcounted).objects q hmem).1
          rw [hnext, hhead]
          exact ih (h.counted hcounted) hkpos (.inr rfl) (.inr (hitem.trans hq))
        · obtain ⟨M', hnext, hcounted⟩ := h.nextItem_list hp hfits
          rw [hnext]
          exact ih (h.counted hcounted) hkpos (.inr rfl) (.inl (h.counted hcounted).item)
      · have hlt : obj < 2 ^ 63 := by
          rcases hobj with rfl | rfl
          · norm_num
          · exact hq ▸ (h.holds.objects q hmem).2.2
        have hlacks' : ¬ d.Lists word obj := by
          rcases hobj with rfl | rfl
          · exact h.holds.not_lists_zero word
          · exact hlacks
        obtain ⟨word', hword'⟩ : ∃ word', (first :: rest)[i]? = some word' := by
          have hlen := (List.getElem?_eq_some_iff.mp hk).1
          exact ⟨_, List.getElem?_eq_getElem (by omega)⟩
        have hexact : (⟨first :: rest, false⟩ : Keywords).partialMatch = false := rfl
        have hturn := @Holds.loop_later d text M fuel treeA obj i 0 h.holds hfits _ hexact word'
          hword' hpos.ne' hlt turns
        by_cases hhas : d.Lists word' obj
        · have hne : i ≠ k := by
            rintro rfl
            rw [hk, Option.some.injEq] at hword'
            exact hlacks' (hword' ▸ hhas)
          rw [hturn.1 hhas]
          exact ih h (by omega) htree hobj
        · rw [hturn.2 hhas]
          exact ih h (Nat.zero_le k) htree hobj

end Last

/-- In some memory an object is the last of the global list. -/
theorem Holds.exists_last (h : d.Holds text M) {q : ℕ} (hq : q ∈ d.innerItems) :
    ∃ M' L, d.Last text M' (d.object q) L := by
  obtain ⟨L, hreads, hitems⟩ : ∃ L, (∀ x ∈ d.reads M, x < L) ∧
      ∀ q ∈ d.innerItems, q + 48 < L ∧ d.object q + 192 ≤ L := by
    have hle : ∀ {l : List ℕ} {x : ℕ}, x ∈ l → x ≤ l.sum :=
      fun hx ↦ List.single_le_sum (fun _ _ ↦ Nat.zero_le _) _ hx
    refine ⟨(d.reads M).sum + (d.innerItems.map fun q ↦ q + 48).sum +
      (d.innerItems.map fun q ↦ d.object q + 192).sum + 1, fun x hx ↦ ?_, fun q hq ↦ ⟨?_, ?_⟩⟩
    · have hsum := hle hx
      omega
    · have hsum := hle (List.mem_map_of_mem (f := fun q ↦ q + 48) hq)
      omega
    · have hsum := hle (List.mem_map_of_mem (f := fun q ↦ d.object q + 192) hq)
      omega
  obtain ⟨M', hM'⟩ : ∃ M' : Memory, M' = fun x ↦
      if x = d.object q + 16 then L
      else if x = d.object q + 8 ∨ x = L + 24 ∨ x = L + 48 then 0
      else M x := ⟨_, rfl⟩
  have hsame : ∀ x, x ≠ d.object q + 16 → x ≠ d.object q + 8 → x ≠ L + 24 → x ≠ L + 48 →
      M' x = M x := by
    intro x h16 h8 hitem hcount
    simp [hM', h16, h8, hitem, hcount]
  -- An object has no word among those of the list, and its links only where another one has them.
  have hfield : ∀ q' ∈ d.innerItems, ∀ n, n < 192 → n ≠ 8 → n ≠ 16 →
      M' (d.object q' + n) = M (d.object q' + n) := by
    intro q' hq' n hn h8 h16
    have habove := (hitems q' hq').2
    by_cases heq : d.object q = d.object q'
    · exact hsame _ (by omega) (by omega) (by omega) (by omega)
    · have heach := h.apart.each q hq q' hq' heq
      exact hsame _ (by omega) (by omega) (by omega) (by omega)
  have hobject := (hitems q hq).2
  refine ⟨M', L, h.congr ?_ ?_ ?_, ⟨q, hq, rfl⟩, ?_, ?_, hitems, ?_, ?_⟩
  · intro x hx
    have hbelow := hreads x hx
    have hapart := h.apart.objects q hq x hx
    exact hsame x (by omega) (by omega) (by omega) (by omega)
  · exact fun q' hq' ↦ hfield q' hq' 144 (by omega) (by omega) (by omega)
  · exact fun q' hq' ↦ hfield q' hq' 152 (by omega) (by omega) (by omega)
  · simp [hM']
  · simp [hM']
  · have hne : L + 48 ≠ d.object q + 16 := by omega
    simp [visited, hM', hne]
  · have hne : L + 24 ≠ d.object q + 16 := by omega
    simp [hM', hne]

end Index

/-- In every memory that holds the tree the search enumerates the objects that have the words, if
and only if no object has the first word, or the one of least address among those that do has the
others and is the only one. -/
theorem enumerates_iff (h : d.Holds text M) (first : Word) (rest : List Word) :
    (∀ M', d.Holds text M' →
        Enumerates text d.tree ⟨first :: rest, false⟩ M' (d.Matches (first :: rest))) ↔
      (∀ obj, ¬ d.Lists first obj) ∨
        ∃ a, d.Matches (first :: rest) a ∧ (∀ obj, d.Lists first obj → a ≤ obj) ∧
          ∀ obj, d.Matches (first :: rest) obj → obj = a := by
  constructor
  · intro henumerates
    by_cases hnone : ∀ obj, ¬ d.Lists first obj
    · exact .inl hnone
    obtain ⟨obj, hobj⟩ := not_forall_not.mp hnone
    obtain ⟨p, hp, hfold, q, hq, hhead, hle⟩ := h.exists_least hobj
    have hmem := Index.Holds.mem_innerItems hp hq
    by_cases hmatches : d.Matches (first :: rest) (d.object q)
    · refine .inr ⟨d.object q, hmatches, hle, fun o ho ↦ ?_⟩
      obtain ⟨n, hrun⟩ := h.run_least hmatches hle
      exact List.mem_singleton.mp (((henumerates M h).mem_iff hrun o).mpr ho)
    · exfalso
      obtain ⟨M', L, hlast⟩ := h.exists_last hmem
      obtain ⟨objs, -, -, n, hrun⟩ := henumerates M' hlast.holds
      obtain ⟨n', hfits⟩ := d.exists_fits
      obtain ⟨word, hword, hlacks⟩ :
          ∃ word ∈ first :: rest, ¬ d.Lists word (d.object q) := by
        simpa only [Index.Matches, not_forall, exists_prop] using hmatches
      obtain ⟨k, hk⟩ := List.getElem?_of_mem hword
      have hnever : keywordLoop (max n n') text d.tree 0 ⟨first :: rest, false⟩ (max n n') 0 0 0
          M' = none := hlast.loop_none hp hfold (hfits (max n n') (le_max_right n n')) hhead rfl hk
        hlacks (Nat.zero_le k) (.inl rfl) (.inl rfl)
      have hreturn := hrun (max n n') (le_max_left n n')
      rw [objectsWithKeywords, objectKeywordFindFirst, objectKeywordFindNext, hnever] at hreturn
      cases hreturn
  · rintro (hnone | ⟨a, hmatches, hleast, honly⟩) M' h'
    · refine ⟨[], List.nodup_nil, fun obj ↦ ?_, h'.run_none hnone⟩
      simpa using fun hmatches ↦ hnone obj (hmatches first (by simp))
    · refine ⟨[a], List.nodup_singleton a, fun obj ↦ ?_, h'.run_least hmatches hleast⟩
      rw [List.mem_singleton]
      exact ⟨fun heq ↦ heq ▸ hmatches, honly obj⟩

/-! ## Two swords -/

/-- Two objects, both of them swords. -/
def twoSwords : Index where
  tree := 1000
  outer := .node 2000 .nil .nil
  word _ := sword
  sub _ := 3000
  inner _ := .node 6000 .nil (.node 7000 .nil .nil)
  object q := if q = 6000 then 10000 else 20000

/-- The words of memory that are not zero. -/
def twoSwordsMemory (x : ℕ) : ℕ :=
  ([(1024, 2000), (2024, 3000), (2032, 4000), (4000, 5000), (3024, 6000), (6008, 7000),
    (6024, 10000), (6032, 8000), (8000, 10000), (7016, 6000), (7024, 20000), (7032, 9000),
    (9000, 20000)].lookup x).getD 0

theorem twoSwords_holds : twoSwords.Holds twoSwords.word twoSwordsMemory where
  tree := by decide
  outer := ⟨⟨rfl, rfl, rfl, rfl⟩, by decide⟩
  byWord := by simp [Sorted, twoSwords]
  words := by
    intro p hp
    obtain rfl : p = 2000 := by simpa [twoSwords] using hp
    exact ⟨by decide, rfl⟩
  subs := by
    intro p hp
    obtain rfl : p = 2000 := by simpa [twoSwords] using hp
    exact ⟨rfl, by decide⟩
  inner := by
    intro p hp
    have hdistinct : ([6000, 7000] : List ℕ).Nodup := by decide
    exact ⟨⟨rfl, rfl, rfl, rfl, rfl, rfl, rfl⟩, hdistinct⟩
  byAddress := by simp [Sorted, twoSwords]
  keys := by decide
  objects := by decide
  containItem := by decide
  contentItem := by decide
  apart := ⟨by decide, by decide, by decide, by decide⟩

/-- The second of two swords is never found. -/
theorem not_enumerates_twoSwords :
    ∃ (d : Index) (text : ℕ → Word) (M : Memory) (words : List Word), d.Holds text M ∧
      words ≠ [] ∧ ¬ Enumerates text d.tree ⟨words, false⟩ M (d.Matches words) := by
  refine ⟨twoSwords, twoSwords.word, twoSwordsMemory, [twoSwords.word 0], twoSwords_holds,
    List.cons_ne_nil _ _, fun henumerates ↦ ?_⟩
  have hfirst : twoSwords.Matches [twoSwords.word 0] 10000 := by
    simp [Index.Matches, Index.Lists, twoSwords]
  have hsecond : twoSwords.Matches [twoSwords.word 0] 20000 := by
    simp [Index.Matches, Index.Lists, twoSwords]
  have hleast : ∀ obj, twoSwords.Lists (twoSwords.word 0) obj → 10000 ≤ obj := by
    rintro _ ⟨p, -, -, q, -, rfl⟩
    simp only [twoSwords]
    split <;> omega
  obtain ⟨n, hrun⟩ := twoSwords_holds.run_least hfirst hleast
  have hfound := (henumerates.mem_iff hrun 20000).mpr hsecond
  simp at hfound

theorem enumerates_iff_twoSwords :
    (∀ M', twoSwords.Holds twoSwords.word M' → Enumerates twoSwords.word twoSwords.tree
        ⟨[twoSwords.word 0], false⟩ M' (twoSwords.Matches [twoSwords.word 0])) ↔
      (∀ obj, ¬ twoSwords.Lists (twoSwords.word 0) obj) ∨
        ∃ a, twoSwords.Matches [twoSwords.word 0] a ∧
          (∀ obj, twoSwords.Lists (twoSwords.word 0) obj → a ≤ obj) ∧
          ∀ obj, twoSwords.Matches [twoSwords.word 0] obj → obj = a :=
  enumerates_iff twoSwords_holds (twoSwords.word 0) []

end HavokMud.Objects.KeywordSearch
