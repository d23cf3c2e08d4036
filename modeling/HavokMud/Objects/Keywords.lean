import HavokMud.Objects.Pruning

/-!
# Keyword indexes

`objectKeywordTreeAdd` and `objectKeywordTreeRemove` take one turn for each keyword of the object.
All its items are in one array, so an object can be in one keyword index only.  As long as that is
respected each index lists exactly its objects.
-/

namespace HavokMud.Objects

open BinaryTree SearchTree BTree

/-! ## One object -/

/-- What the callbacks see of the keywords of an object. -/
def folds (words : List (Option Word)) : List (List ℕ) :=
  words.filterMap (Option.map fun text ↦ fold text.1)

@[simp] theorem folds_nil : folds [] = [] := rfl

@[simp]
theorem folds_cons_none (words : List (Option Word)) : folds (none :: words) = folds words := rfl

@[simp]
theorem folds_cons_some (text : Word) (words : List (Option Word)) :
    folds (some text :: words) = fold text.1 :: folds words := rfl

section Turns

variable (garbage : Key → Key → ℤ) {fuel : ℕ} {s s' : Indexes} {tree tree' : Tree → BinaryTree Item}
  {obj : Address}

theorem eachWord_cons (turn : Word → ℕ → Indexes → Option Indexes) (word : Option Word)
    (words : List (Option Word)) (first : ℕ) (s : Indexes) :
    eachWord turn (word :: words) first s =
      (match word with
        | none => some s
        | some text => turn text first s).bind (eachWord turn words (first + 1)) := by
  rw [eachWord, List.zipIdx_cons, List.foldlM_cons]
  rfl

/-- The other objects, and the other indexes, are listed as before. -/
def SameElsewhere (h : Heap Item Key Tree) (tree : Tree → BinaryTree Item)
    (h' : Heap Item Key Tree) (tree' : Tree → BinaryTree Item) (t : Tree) (obj : Address) : Prop :=
  ∀ t' r' obj', t'.Outer → (t', obj') ≠ (t, obj) →
    copies h' tree' t' r' obj' = copies h tree t' r' obj'

theorem SameElsewhere.trans {h₁ h₂ h₃ : Heap Item Key Tree}
    {tree₁ tree₂ tree₃ : Tree → BinaryTree Item} {t : Tree}
    (h₁₂ : SameElsewhere h₁ tree₁ h₂ tree₂ t obj) (h₂₃ : SameElsewhere h₂ tree₂ h₃ tree₃ t obj) :
    SameElsewhere h₁ tree₁ h₃ tree₃ t obj := by
  intro t' r' obj' ht' hne
  rw [h₂₃ t' r' obj' ht' hne, h₁₂ t' r' obj' ht' hne]

/-- The loop of `objectKeywordTreeAdd`. -/
theorem eachWord_indexAdd (index : KeywordTree) (obj : Address) (hs : Indexed s tree)
    (words : List (Option Word)) (first : ℕ)
    (hitems : ∀ i b, first ≤ i → .keywordItem obj i ∉ inorder (tree b))
    (hfuel : ∀ b, (tree b).numNodes + words.length ≤ fuel) :
    ∃ s' tree', eachWord (fun text i ↦ indexAdd garbage fuel (some (.keywords index)) (.word text)
        (.keywordItem obj i) obj) words first s = some s' ∧
      Indexed s' tree' ∧ SameObjects s s' ∧
      (∀ b, (tree' b).numNodes ≤ (tree b).numNodes + words.length) ∧
      (∀ r, copies s'.heap tree' (.keywords index) r obj ≤
          copies s.heap tree (.keywords index) r obj + (folds words).count r ∧
        (0 < copies s.heap tree (.keywords index) r obj ∨ r ∈ folds words →
          0 < copies s'.heap tree' (.keywords index) r obj)) ∧
      SameElsewhere s.heap tree s'.heap tree' (.keywords index) obj := by
  induction words generalizing s tree first with
  | nil =>
      refine ⟨s, tree, rfl, hs, ⟨rfl, rfl, rfl, rfl⟩, fun b ↦ le_rfl, ?_, fun _ _ _ _ _ ↦ rfl⟩
      intro r
      simp
  | cons word words ih =>
      cases word with
      | none =>
          obtain ⟨s', tree', hrun, hs', hsame, hsize, hcopies, helse⟩ := ih hs (first + 1)
            (fun i b hi ↦ hitems i b (by omega)) (fun b ↦ (Nat.le_succ _).trans (hfuel b))
          refine ⟨s', tree', ?_, hs', hsame, fun b ↦ (hsize b).trans (Nat.le_succ _), ?_, helse⟩
          · rw [eachWord_cons]
            exact hrun
          · simpa using hcopies
      | some text =>
          have hlength : ∀ b, (tree b).numNodes + words.length + 1 ≤ fuel := hfuel
          have hlt : ∀ b, (tree b).numNodes < fuel := by
            intro b
            have := hlength b
            omega
          have hsuits : Suits (.keywords index) (.word text) := ⟨text, rfl⟩
          obtain ⟨s₁, tree₁, hrun₁, hs₁, hsame₁, hgrows₁, hitems₁, hgains⟩ :=
            hs.indexAdd garbage (t := .keywords index) trivial hsuits (hitems first · le_rfl) rfl
              trivial hlt
          have hnext : ∀ i b, first + 1 ≤ i → .keywordItem obj i ∉ inorder (tree₁ b) := by
            intro i b hi hmem
            rcases hitems₁ b _ hmem with heq | hnone | hold
            · have : i = first := by simpa using heq
              omega
            · cases hnone
            · exact hitems i b (by omega) hold
          obtain ⟨s₂, tree₂, hrun₂, hs₂, hsame₂, hsize₂, hcopies₂, helse₂⟩ :=
            ih hs₁ (first + 1) hnext (fun b ↦ by have := hlength b; have := hgrows₁ b; omega)
          refine ⟨s₂, tree₂, ?_, hs₂, hsame₁.trans hsame₂, ?_, ?_, ?_⟩
          · rw [eachWord_cons]
            simp [hrun₁, hrun₂]
          · intro b
            have := hsize₂ b
            have := hgrows₁ b
            simp only [List.length_cons]
            omega
          · intro r
            obtain ⟨hle, hpos⟩ := hcopies₂ r
            rw [folds_cons_some, List.count_cons, List.mem_cons]
            by_cases hr : fold text.1 = r
            · subst hr
              have hhere : copies s₁.heap tree₁ (.keywords index) (fold text.1) obj ≤
                    copies s.heap tree (.keywords index) (fold text.1) obj + 1 ∧
                  0 < copies s₁.heap tree₁ (.keywords index) (fold text.1) obj := by
                rcases hgains.here with heq | ⟨heq, hpos⟩
                · exact ⟨heq.le, heq ▸ Nat.succ_pos _⟩
                · exact ⟨heq.le.trans (Nat.le_succ _), heq ▸ hpos⟩
              refine ⟨?_, fun _ ↦ hpos (.inl hhere.2)⟩
              simp only [beq_self_eq_true, if_true]
              omega
            · have hsame : copies s₁.heap tree₁ (.keywords index) r obj =
                  copies s.heap tree (.keywords index) r obj :=
                hgains.elsewhere _ r obj trivial fun heq ↦ hr (by simpa [rank] using heq.symm)
              rw [hsame] at hle hpos
              refine ⟨by simpa [hr] using hle, ?_⟩
              rintro (hold | rfl | hmem)
              · exact hpos (.inl hold)
              · exact absurd rfl hr
              · exact hpos (.inr hmem)
          · refine SameElsewhere.trans ?_ helse₂
            intro t' r' obj' ht' hne
            refine hgains.elsewhere t' r' obj' ht' ?_
            rintro ⟨⟩
            exact hne rfl

/-- The loop of `objectKeywordTreeRemove`. -/
theorem eachWord_indexRemove (index : KeywordTree) (obj : Address) (hs : Indexed s tree)
    (words : List (Option Word)) (first : ℕ)
    (hfuel : ∀ b, (tree b).numNodes ≤ fuel) :
    ∃ s' tree', eachWord (fun text _ ↦ indexRemove garbage fuel (some (.keywords index))
        (some (.keywords index)) (.word text) obj) words first s = some s' ∧
      Indexed s' tree' ∧ SameObjects s s' ∧ Shrinks tree tree' ∧
      (∀ r, copies s'.heap tree' (.keywords index) r obj =
        copies s.heap tree (.keywords index) r obj - (folds words).count r) ∧
      SameElsewhere s.heap tree s'.heap tree' (.keywords index) obj := by
  induction words generalizing s tree first with
  | nil =>
      refine ⟨s, tree, rfl, hs, ⟨rfl, rfl, rfl, rfl⟩, fun b ↦ List.Subperm.refl _, ?_,
        fun _ _ _ _ _ ↦ rfl⟩
      intro r
      simp
  | cons word words ih =>
      cases word with
      | none =>
          obtain ⟨s', tree', hrun, hrest⟩ := ih hs (first + 1) hfuel
          refine ⟨s', tree', ?_, hrest⟩
          rw [eachWord_cons]
          exact hrun
      | some text =>
          have hsuits : Suits (.keywords index) (.word text) := ⟨text, rfl⟩
          obtain ⟨s₁, tree₁, hrun₁, hs₁, hsame₁, hshrinks₁, hloses⟩ :=
            hs.indexRemove garbage (t := .keywords index) trivial hsuits hfuel obj
          obtain ⟨s₂, tree₂, hrun₂, hs₂, hsame₂, hshrinks₂, hcopies₂, helse₂⟩ :=
            ih hs₁ (first + 1) fun b ↦ (hshrinks₁.numNodes_le b).trans (hfuel b)
          refine ⟨s₂, tree₂, ?_, hs₂, hsame₁.trans hsame₂,
            fun b ↦ (hshrinks₂ b).trans (hshrinks₁ b), ?_, ?_⟩
          · rw [eachWord_cons]
            simp [hrun₁, hrun₂]
          · intro r
            rw [hcopies₂, folds_cons_some, List.count_cons]
            by_cases hr : fold text.1 = r
            · subst hr
              have hhere := hloses.here
              rw [rank] at hhere
              rw [hhere]
              simp only [beq_self_eq_true, if_true]
              omega
            · have hsame : copies s₁.heap tree₁ (.keywords index) r obj =
                  copies s.heap tree (.keywords index) r obj :=
                hloses.elsewhere _ r obj trivial fun heq ↦ hr (by simpa [rank] using heq.symm)
              simp [hsame, hr]
          · refine SameElsewhere.trans ?_ helse₂
            intro t' r' obj' ht' hne
            refine hloses.elsewhere t' r' obj' ht' ?_
            rintro ⟨⟩
            exact hne rfl

theorem eachWord_of_folds_nil (turn : Word → ℕ → Indexes → Option Indexes)
    {words : List (Option Word)} (hwords : folds words = []) (first : ℕ) (s : Indexes) :
    eachWord turn words first s = some s := by
  induction words generalizing first with
  | nil => rfl
  | cons word words ih =>
      cases word with
      | none =>
          rw [eachWord_cons]
          exact ih hwords (first + 1)
      | some text => simp at hwords

/-- In a NULL tree nothing is found. -/
theorem eachWord_indexRemove_none (words : List (Option Word)) (first : ℕ) (s : Indexes) :
    eachWord (fun text _ ↦ indexRemove garbage fuel none none (.word text) obj) words first s =
      some s := by
  induction words generalizing first with
  | nil => rfl
  | cons word words ih =>
      rw [eachWord_cons]
      cases word with
      | none => exact ih (first + 1)
      | some text =>
          have hturn : indexRemove garbage fuel none none (.word text) obj s = some s := rfl
          simp only [hturn, Option.bind_some, ih]

end Turns

/-! ## Both functions -/

section Both

variable (garbage : Key → Key → ℤ) {fuel : ℕ} {s s' : Indexes} {tree : Tree → BinaryTree Item}
  {obj : Address}

/-- The indexes are in the heap of items. -/
theorem Indexed.congr (hs : Indexed s tree) (hheap : s'.heap = s.heap)
    (hitems : s'.items = s.items) : Indexed s' tree := by
  refine ⟨?_, ?_, ?_, ?_, ?_⟩
  · rw [hheap]
    exact hs.forest
  · rw [hitems]
    exact hs.outer
  · rw [hheap]
    exact hs.distinct
  · rw [hheap]
    exact hs.inner
  · exact hs.hung

/-- An object that is in no keyword index is added to one. -/
theorem objectKeywordTreeAdd_spec (index : KeywordTree) (hs : Indexed s tree)
    (hnone : ∀ index r, copies s.heap tree (.keywords index) r obj = 0)
    (hfuel : ∀ b, (tree b).numNodes + (s.words obj).length ≤ fuel) :
    ∃ s' tree', objectKeywordTreeAdd garbage fuel (some index) obj s = some s' ∧
      Indexed s' tree' ∧ s'.words = s.words ∧ s'.typeFlag = s.typeFlag ∧ s'.live = s.live ∧
      (∀ b, (tree' b).numNodes ≤ (tree b).numNodes + (s.words obj).length) ∧
      (∀ r, copies s'.heap tree' (.keywords index) r obj ≤ (folds (s.words obj)).count r ∧
        (r ∈ folds (s.words obj) → 0 < copies s'.heap tree' (.keywords index) r obj)) ∧
      SameElsewhere s.heap tree s'.heap tree' (.keywords index) obj := by
  have hs₀ : Indexed { s with keywordItem := Function.update s.keywordItem obj true } tree :=
    hs.congr rfl rfl
  have hitems : ∀ i b, 0 ≤ i → .keywordItem obj i ∉ inorder (tree b) := by
    intro i b _
    refine hs.notMem_of_copies rfl ?_ b
    intro t r ht hkind
    cases t with
    | keywords index => exact hnone index r
    | types => cases hkind
    | sub n => cases hkind
  obtain ⟨s', tree', hrun, hs', hsame, hsize, hcopies, helse⟩ :=
    eachWord_indexAdd garbage index obj hs₀ (s.words obj) 0 hitems hfuel
  refine ⟨s', tree', hrun, hs', hsame.words, hsame.typeFlag, hsame.live, hsize, ?_, helse⟩
  intro r
  obtain ⟨hle, hpos⟩ := hcopies r
  have hzero : copies s.heap tree (.keywords index) r obj = 0 := hnone index r
  exact ⟨by simpa [hzero] using hle, fun hr ↦ hpos (.inr hr)⟩

/-- An object is removed from an index, as often as it has keywords. -/
theorem objectKeywordTreeRemove_spec (index : KeywordTree) (obj : Address) (hs : Indexed s tree)
    (hfuel : ∀ b, (tree b).numNodes ≤ fuel) :
    ∃ s' tree', objectKeywordTreeRemove garbage fuel (some index) obj s = some s' ∧
      Indexed s' tree' ∧ s'.words = s.words ∧ s'.typeFlag = s.typeFlag ∧ s'.live = s.live ∧
      (∀ b, (tree' b).numNodes ≤ (tree b).numNodes) ∧
      (∀ r, copies s'.heap tree' (.keywords index) r obj =
        copies s.heap tree (.keywords index) r obj - (folds (s.words obj)).count r) ∧
      SameElsewhere s.heap tree s'.heap tree' (.keywords index) obj := by
  obtain ⟨s', tree', hrun, hs', hsame, hshrinks, hcopies, helse⟩ :=
    eachWord_indexRemove garbage index obj hs (s.words obj) 0 hfuel
  refine ⟨{ s' with keywordItem := Function.update s'.keywordItem obj false }, tree', ?_,
    hs'.congr rfl rfl, hsame.words, hsame.typeFlag, hsame.live, hshrinks.numNodes_le, hcopies,
    helse⟩
  simp only [objectKeywordTreeRemove, Option.map_some, hrun, Option.bind_eq_bind, Option.bind_some]

/-- The keywords of a new object are set. -/
theorem create_spec (hs : Indexed s tree) (hnone : ∀ r, copies s.heap tree .types r obj = 0)
    (flag : ItemType) (words : List (Option Word)) : Indexed (create obj flag words s) tree ∧
      ∀ t r obj', t.Outer →
        copies (create obj flag words s).heap tree t r obj' = copies s.heap tree t r obj' := by
  have hitem : ∀ b, .typeItem obj ∉ inorder (tree b) := by
    intro b
    refine hs.notMem_of_copies rfl ?_ b
    intro t r ht hkind
    cases t with
    | keywords index => cases hkind
    | types => exact hnone r
    | sub n => cases hkind
  have hne : ∀ b, ∀ a ∈ inorder (tree b), a ≠ .typeItem obj := by
    rintro b a ha rfl
    exact hitem b ha
  have hkeys : ∀ b, ∀ a ∈ inorder (tree b),
      (create obj flag words s).heap.key a = s.heap.key a := by
    intro b a ha
    exact Function.update_of_ne (hne b a ha) _ _
  have hs' : Indexed (create obj flag words s) tree := by
    refine ⟨?_, hs.outer, ?_, ?_, hs.hung⟩
    · refine hs.forest.congr ?_ fun _ ↦ rfl
      intro b a ha
      simp [create, clearItem, setKey, hne b a ha]
    · intro t ht a ha a' ha' hrank
      rw [hkeys t a ha, hkeys t a' ha'] at hrank
      exact hs.distinct t ht a ha a' ha' hrank
    · intro n a ha
      rw [hkeys _ a ha]
      exact hs.inner n a ha
  refine ⟨hs', ?_⟩
  intro t r obj' ht
  by_cases hex : ∃ a ∈ inorder (tree t), rank (s.heap.key a) = r
  · obtain ⟨a, ha, hr⟩ := hex
    obtain ⟨n, -, rfl⟩ := hs.outer t ht a ha
    rw [hs.copies_of_mem ht ha hr, hs'.copies_of_mem ht ha (by rw [hkeys t _ ha, hr])]
    exact copiesIn_congr (List.Perm.refl _) (hkeys _)
  · push Not at hex
    rw [Indexed.copies_of_ne hex]
    refine Indexed.copies_of_ne ?_ obj'
    intro a ha
    rw [hkeys t a ha]
    exact hex a ha

end Both

end HavokMud.Objects
