import HavokMud.Attributes.Indexes
import HavokMud.Attributes.LockBalance

/-!
# Deleting attributes

`DeleteAttribute` with the mutexes as no-ops.  It takes a pair out of both trees of a pc.  A source
without attributes goes with its last pair, but an attribute without sources stays, and without a
source the call follows NULL.
-/

namespace HavokMud.Attributes

open BinaryTree BTree SearchTree Json

/-! ## The source -/

/-- `SourceDeleteAttrib`, and what `DeleteAttribute` does in the tree of an attribute. -/
def deleteKey (key : CString) (tree : Tree) : Tree :=
  if (Dictionary.lookup compareKeys key tree).isSome then
    balance (Dictionary.erase compareKeys key tree)
  else tree

/-- `SourceTreeDeleteAttrib`, which does not stop at NULL. -/
def sourceTreeDeleteAttrib (attrib : CString) : Trees → Option Trees
  | .nil => none
  | .node e l r => do
      let l ← sourceTreeDeleteAttrib attrib l
      let r ← sourceTreeDeleteAttrib attrib r
      some (.node (e.1, deleteKey attrib e.2) l r)

/-- `SourceTreeCleanup`: an empty tree is removed, if there is one. -/
def sourceTreeCleanup : Trees → Option Trees
  | .nil => none
  | .node e l r =>
      match sourceTreeCleanup l with
      | some l => some (.node e l r)
      | none =>
          match sourceTreeCleanup r with
          | some r => some (.node e l r)
          | none =>
              match e.2 with
              | .nil => some (dropRoot (.node e l r))
              | .node _ _ _ => none

/-- The loop around `SourceTreeCleanup`, which removes at most all items. -/
def cleanUp : ℕ → Trees → Trees
  | 0, sources => sources
  | turns + 1, sources =>
      match sourceTreeCleanup sources with
      | some sources => cleanUp turns sources
      | none => sources

/-- `DeleteAttribute` on the tree of attributes.  Without a source, the loop around
`AttribTreeItemsDestroy` empties the tree of the attribute before it is removed. -/
def deleteFromAttribs (attrib : CString) (source : Option CString) (attribs : Trees) : Trees :=
  match Dictionary.lookup compareKeys attrib attribs with
  | none => attribs
  | some subTree =>
      match source with
      | none => balance (Dictionary.erase compareKeys attrib attribs)
      | some source => Dictionary.assign compareKeys attrib (deleteKey source subTree) attribs

/-- What `DeleteAttribute` does with the tree of a source. -/
def deleteFromSource (attrib source : CString) (sources : Trees) : Trees :=
  match Dictionary.lookup compareKeys source sources with
  | none => sources
  | some subTree =>
      match deleteKey attrib subTree with
      | .nil => balance (Dictionary.erase compareKeys source sources)
      | tree => Dictionary.assign compareKeys source tree sources

/-- `DeleteAttribute` on the tree of sources. -/
def deleteFromSources (attrib : CString) :
    Option CString → Option Trees → Option (Option Trees)
  | some source, sources => some (sources.map (deleteFromSource attrib source))
  -- `pc->sources->root`
  | none, none => none
  | none, some sources => do
      let deleted ← sourceTreeDeleteAttrib attrib sources
      let cleaned := cleanUp deleted.numNodes deleted
      some (some (if cleaned.numNodes < deleted.numNodes then balance cleaned else cleaned))

/-- `DeleteAttribute`. -/
def deleteAttribute (attrib : CString) (source : Option CString) (pc : PlayerPC) :
    Option PlayerPC :=
  (deleteFromSources attrib source pc.sources).map fun sources ↦
    ⟨pc.attribs.map (deleteFromAttribs attrib source), sources⟩

/-! ## What is asked of a deletion -/

/-- The pair of an attribute and a source is to be removed. -/
def Removed (attrib : CString) (source : Option CString) (outer inner : List ℕ) : Prop :=
  outer = rank attrib ∧ ∀ s, source = some s → inner = rank s

/-- No tree is empty at a key that was not empty there before. -/
def Pruned (trees trees' : Trees) : Prop :=
  ∀ key, Dictionary.value rank trees' key = some .nil → Dictionary.value rank trees key = some .nil

open Classical in
/-- A deletion takes the pairs out of both trees, leaves the others as they are and leaves no tree
that it has emptied. -/
structure Deleted (attrib : CString) (source : Option CString) (pc pc' : PlayerPC) : Prop where
  attribs : ∀ outer inner, entry pc'.attribTrees outer inner =
    if Removed attrib source outer inner then none else entry pc.attribTrees outer inner
  sources : ∀ outer inner, entry pc'.sourceTrees inner outer =
    if Removed attrib source outer inner then none else entry pc.sourceTrees inner outer
  prunedAttribs : Pruned pc.attribTrees pc'.attribTrees
  prunedSources : Pruned pc.sourceTrees pc'.sourceTrees

/-- A source is given, and where it has the attribute, another source has it too. -/
def KeepsOne (attrib : CString) (source : Option CString) (pc : PlayerPC) : Prop :=
  ∃ s, source = some s ∧ (entry pc.attribTrees (rank attrib) (rank s) ≠ none →
    ∃ other, other ≠ rank s ∧ entry pc.attribTrees (rank attrib) other ≠ none)

/-! ## One tree -/

variable {attrib source : CString} {pc : PlayerPC} {trees : Trees} {tree : Tree}

theorem deleteKey_spec (h : Dictionary.Ordered rank tree) (key : CString) :
    Dictionary.Ordered rank (deleteKey key tree) ∧ ∀ inner,
      Dictionary.value rank (deleteKey key tree) inner =
        if inner = rank key then none else Dictionary.value rank tree inner := by
  unfold deleteKey
  rw [h.lookup_eq ranks_compareKeys]
  split_ifs with hfound
  · refine ⟨(h.erase ranks_compareKeys key).balance, fun inner ↦ ?_⟩
    rw [Dictionary.value_balance, h.value_erase ranks_compareKeys]
    congr!
  · refine ⟨h, fun inner ↦ ?_⟩
    split_ifs with hkey
    · rw [hkey, Option.not_isSome_iff_eq_none.mp hfound]
    · rfl

/-- A tree is empty exactly if it holds nothing. -/
theorem eq_nil_iff (h : Dictionary.Ordered rank tree) :
    tree = .nil ↔ ∀ inner, Dictionary.value rank tree inner = none := by
  constructor
  · rintro rfl inner
    rfl
  · intro hnone
    rw [← inorder_eq_nil, List.eq_nil_iff_forall_not_mem]
    intro e he
    exact Dictionary.value_eq_none_iff.mp (hnone (rank e.1)) e he rfl

/-- The attribute loses the source, and its tree stays. -/
theorem deleteFromAttribs_some (h : Ordered trees) (attrib source : CString) :
    Ordered (deleteFromAttribs attrib (some source) trees) ∧ ∀ key,
      Dictionary.value rank (deleteFromAttribs attrib (some source) trees) key =
        if key = rank attrib then (Dictionary.value rank trees key).map (deleteKey source)
        else Dictionary.value rank trees key := by
  unfold deleteFromAttribs
  rw [h.outer.lookup_eq ranks_compareKeys]
  cases hfound : Dictionary.value rank trees (rank attrib) with
  | none =>
      refine ⟨h, fun key ↦ ?_⟩
      split_ifs with hkey
      · rw [hkey, hfound]
        rfl
      · rfl
  | some subTree =>
      have hsub := (deleteKey_spec (h.inner_of_value hfound) source).1
      refine ⟨h.assign hsub attrib, fun key ↦ ?_⟩
      dsimp only
      rw [h.outer.value_assign ranks_compareKeys]
      split_ifs with hkey
      · rw [hkey, hfound]
        rfl
      · rfl

/-- A tree that is not empty. -/
def occupied : Tree → Option Tree
  | .nil => none
  | .node e l r => some (.node e l r)

theorem occupied_eq_some {tree' : Tree} (h : occupied tree = some tree') :
    tree' = tree ∧ tree ≠ .nil := by
  cases tree with
  | nil => cases h
  | node e l r =>
      obtain rfl := Option.some.inj h
      exact ⟨rfl, nofun⟩

/-- What the tree of a source holds where it is not empty. -/
theorem value_occupied (tree : Option Tree) (inner : List ℕ) :
    ((tree.bind occupied).bind fun tree ↦ Dictionary.value rank tree inner) =
      tree.bind fun tree ↦ Dictionary.value rank tree inner := by
  cases tree with
  | none => rfl
  | some tree => cases tree <;> rfl

/-- The source loses the attribute, and goes if that was its last. -/
theorem deleteFromSource_spec (h : Ordered trees) (attrib source : CString) :
    Ordered (deleteFromSource attrib source trees) ∧ ∀ key,
      Dictionary.value rank (deleteFromSource attrib source trees) key =
        if key = rank source then
          ((Dictionary.value rank trees key).map (deleteKey attrib)).bind occupied
        else Dictionary.value rank trees key := by
  unfold deleteFromSource
  rw [h.outer.lookup_eq ranks_compareKeys]
  cases hfound : Dictionary.value rank trees (rank source) with
  | none =>
      refine ⟨h, fun key ↦ ?_⟩
      split_ifs with hkey
      · rw [hkey, hfound]
        rfl
      · rfl
  | some subTree =>
      have hsub := (deleteKey_spec (h.inner_of_value hfound) attrib).1
      dsimp only
      cases hdeleted : deleteKey attrib subTree with
      | nil =>
          refine ⟨(h.erase source).balance, fun key ↦ ?_⟩
          rw [Dictionary.value_balance, h.outer.value_erase ranks_compareKeys]
          split_ifs with hkey
          · rw [hkey, hfound, Option.map_some, Option.bind_some, hdeleted]
            rfl
          · rfl
      | node e l r =>
          rw [hdeleted] at hsub
          refine ⟨h.assign hsub source, fun key ↦ ?_⟩
          rw [h.outer.value_assign ranks_compareKeys]
          split_ifs with hkey
          · rw [hkey, hfound, Option.map_some, Option.map_some, Option.bind_some, hdeleted]
            rfl
          · rfl

/-! ## Both trees -/

theorem entry_deleteFromAttribs (h : Ordered trees) (attrib source : CString)
    (outer inner : List ℕ) : entry (deleteFromAttribs attrib (some source) trees) outer inner =
      if outer = rank attrib ∧ inner = rank source then none else entry trees outer inner := by
  unfold entry
  rw [(deleteFromAttribs_some h attrib source).2]
  by_cases houter : outer = rank attrib
  · rw [if_pos houter]
    cases hvalue : Dictionary.value rank trees outer with
    | none => simp
    | some subTree =>
        rw [Option.map_some, Option.bind_some, Option.bind_some,
          (deleteKey_spec (h.inner_of_value hvalue) source).2]
        simp [houter]
  · rw [if_neg houter, if_neg fun hboth ↦ houter hboth.1]

theorem entry_deleteFromSource (h : Ordered trees) (attrib source : CString)
    (outer inner : List ℕ) : entry (deleteFromSource attrib source trees) inner outer =
      if outer = rank attrib ∧ inner = rank source then none else entry trees inner outer := by
  unfold entry
  rw [(deleteFromSource_spec h attrib source).2]
  by_cases hinner : inner = rank source
  · rw [if_pos hinner, value_occupied]
    cases hvalue : Dictionary.value rank trees inner with
    | none => simp
    | some subTree =>
        rw [Option.map_some, Option.bind_some, Option.bind_some,
          (deleteKey_spec (h.inner_of_value hvalue) attrib).2]
        simp [hinner]
  · rw [if_neg hinner, if_neg fun hboth ↦ hinner hboth.2]

theorem attribTrees_deleted (attrib : CString) (source : Option CString) (attribs : Option Trees)
    (sources : Option Trees) :
    PlayerPC.attribTrees ⟨attribs.map (deleteFromAttribs attrib source), sources⟩ =
      deleteFromAttribs attrib source (attribs.getD .nil) := by
  cases attribs <;> rfl

theorem sourceTrees_deleted (attrib source : CString) (attribs : Option Trees)
    (sources : Option Trees) :
    PlayerPC.sourceTrees ⟨attribs, sources.map (deleteFromSource attrib source)⟩ =
      deleteFromSource attrib source (sources.getD .nil) := by
  cases sources <;> rfl

/-- The tree of a source is not left empty. -/
theorem pruned_deleteFromSource (h : Ordered trees) (attrib source : CString) :
    Pruned trees (deleteFromSource attrib source trees) := by
  intro key hempty
  rw [(deleteFromSource_spec h attrib source).2] at hempty
  split_ifs at hempty with hkey
  · obtain ⟨subTree, -, hoccupied⟩ := Option.bind_eq_some_iff.mp hempty
    obtain ⟨rfl, hne⟩ := occupied_eq_some hoccupied
    exact absurd rfl hne
  · exact hempty

/-- The tree of an attribute is left empty where the source was the only one in it. -/
theorem pruned_deleteFromAttribs_iff (h : Ordered trees) (attrib source : CString) :
    Pruned trees (deleteFromAttribs attrib (some source) trees) ↔
      (entry trees (rank attrib) (rank source) ≠ none →
        ∃ other, other ≠ rank source ∧ entry trees (rank attrib) other ≠ none) := by
  have hvalues := (deleteFromAttribs_some h attrib source).2
  unfold Pruned
  constructor
  · intro hpruned hpresent
    by_contra hnone
    push Not at hnone
    obtain ⟨value, hvalue⟩ := Option.ne_none_iff_exists'.mp hpresent
    obtain ⟨subTree, hsub, hinner⟩ := Option.bind_eq_some_iff.mp hvalue
    have hordered := h.inner_of_value hsub
    have hempty : deleteKey source subTree = .nil := by
      obtain ⟨hdeleted, hkeys⟩ := deleteKey_spec hordered source
      rw [eq_nil_iff hdeleted]
      intro inner
      rw [hkeys]
      split_ifs with hkey
      · rfl
      · have hother := hnone inner hkey
        rw [entry, hsub, Option.bind_some] at hother
        exact hother
    have hold := hpruned (rank attrib) (by rw [hvalues, if_pos rfl, hsub, Option.map_some, hempty])
    rw [hsub, Option.some.injEq] at hold
    rw [hold] at hinner
    cases hinner
  · intro hkeeps key hempty
    rw [hvalues] at hempty
    split_ifs at hempty with hkey
    · subst hkey
      obtain ⟨subTree, hsub, hdeleted⟩ := Option.map_eq_some_iff.mp hempty
      have hordered := h.inner_of_value hsub
      obtain ⟨hordered', hkeys⟩ := deleteKey_spec hordered source
      have hgone := (eq_nil_iff hordered').mp hdeleted
      have hothers : ∀ inner, inner ≠ rank source → Dictionary.value rank subTree inner = none := by
        intro inner hinner
        rw [← hgone inner, hkeys, if_neg hinner]
      rw [hsub, Option.some.injEq, eq_nil_iff hordered]
      intro inner
      by_cases hinner : inner = rank source
      · subst hinner
        by_contra hpresent
        obtain ⟨other, hother, hvalue⟩ := hkeeps (by rwa [entry, hsub, Option.bind_some])
        rw [entry, hsub, Option.bind_some] at hvalue
        exact hvalue (hothers other hother)
      · exact hothers inner hinner
    · exact hempty

theorem sourceTreeDeleteAttrib_eq_none (attrib : CString) (sources : Trees) :
    sourceTreeDeleteAttrib attrib sources = none := by
  induction sources with
  | nil => rfl
  | node e l r ihl _ =>
      rw [sourceTreeDeleteAttrib, ihl]
      rfl

theorem deleteAttribute_eq_none (attrib : CString) (pc : PlayerPC) :
    deleteAttribute attrib none pc = none := by
  unfold deleteAttribute
  cases pc.sources with
  | none => rfl
  | some sources =>
      rw [deleteFromSources, sourceTreeDeleteAttrib_eq_none]
      rfl

/-- A deletion does what it should exactly if a source is given, and another source has the
attribute too where this one has it. -/
theorem deleteAttribute_exact_iff (h : WellFormed pc) (attrib : CString)
    (source : Option CString) :
    (∃ pc', deleteAttribute attrib source pc = some pc' ∧ Deleted attrib source pc pc') ↔
      KeepsOne attrib source pc := by
  cases source with
  | none => simp [deleteAttribute_eq_none, KeepsOne]
  | some s =>
      have hrun : deleteAttribute attrib (some s) pc =
          some ⟨pc.attribs.map (deleteFromAttribs attrib (some s)),
            pc.sources.map (deleteFromSource attrib s)⟩ := rfl
      have hkeeps : KeepsOne attrib (some s) pc ↔
          Pruned pc.attribTrees (deleteFromAttribs attrib (some s) pc.attribTrees) := by
        rw [pruned_deleteFromAttribs_iff h.attribs]
        simp [KeepsOne]
      rw [hkeeps, hrun]
      constructor
      · rintro ⟨pc', heq, hdeleted⟩
        obtain rfl := Option.some.inj heq
        exact (attribTrees_deleted attrib (some s) pc.attribs _) ▸ hdeleted.prunedAttribs
      · intro hpruned
        refine ⟨_, rfl, ?_, ?_, ?_, ?_⟩
        · intro outer inner
          rw [attribTrees_deleted]
          refine (entry_deleteFromAttribs h.attribs attrib s outer inner).trans ?_
          simp [Removed, PlayerPC.attribTrees]
        · intro outer inner
          rw [sourceTrees_deleted]
          refine (entry_deleteFromSource h.sources attrib s outer inner).trans ?_
          simp [Removed, PlayerPC.sourceTrees]
        · rw [attribTrees_deleted]
          exact hpruned
        · rw [sourceTrees_deleted]
          exact pruned_deleteFromSource h.sources attrib s

/-! ## With the mutexes -/

/-- A pc whose items all have names. -/
def PlayerPC.named (pc : PlayerPC) : Locks.PlayerPC :=
  ⟨pc.attribs.map .named, pc.sources.map fun sources ↦ sources.map fun e ↦ (e.1, .named e.2)⟩

/-- Every tree of a source has names then. -/
theorem named_of_mem {sources : Trees} {e : CString × Locks.Named Value}
    (he : e ∈ inorder (sources.map fun e ↦ (e.1, Locks.Named.named e.2))) :
    ∃ tree, e.2 = .named tree := by
  induction sources with
  | nil => cases he
  | node x l r ihl ihr =>
      rw [BinaryTree.map, inorder_node, List.mem_append, List.mem_cons] at he
      rcases he with hl | rfl | hr
      · exact ihl hl
      · exact ⟨x.2, rfl⟩
      · exact ihr hr

open Interaction Locking in
theorem locked_deleteFromAttribs {held : Finset Locks.Mutex}
    (hfree : ∀ name, Locks.Mutex.attrib name ∉ held) (attrib source : CString)
    (attribs : Option Trees) :
    Locks.deleteFromAttribs attrib (some source) (attribs.map .named) held =
      .ok ((attribs.map (deleteFromAttribs attrib (some source))).map .named, held) := by
  cases attribs with
  | none => rfl
  | some trees =>
      simp only [Option.map_some, Locks.deleteFromAttribs, deleteFromAttribs]
      cases Dictionary.lookup compareKeys attrib trees with
      | none => rfl
      | some subTree =>
          have hrun : Locks.deleteFromSubTree attrib subTree trees (some source) held =
              .ok (Dictionary.assign compareKeys attrib (deleteKey source subTree) trees, held) :=
            bind_of_ok (within_of_ok (hfree _) (pure_eq _ _)) _
          exact bind_of_ok hrun _

open Interaction Locking in
/-- Where `DeleteAttribute` returns with its mutexes, it does what it does without them. -/
theorem deleteAttribute_of_locked {source : Option CString} {result : Option Locks.PlayerPC}
    (hrun : Locks.deleteAttribute (some attrib) source (some pc.named) ∅ = .ok (result, ∅)) :
    ∃ pc', deleteAttribute attrib source pc = some pc' ∧ result = some pc'.named := by
  obtain ⟨-, s, rfl, habsent⟩ := Locks.balanced_deleteAttribute_iff.mp ⟨result, hrun⟩
  have hsame : pc.sources.map (deleteFromSource attrib s) = pc.sources := by
    cases hsources : pc.sources with
    | none => rfl
    | some sources =>
        rw [PlayerPC.named, hsources, Option.map_some, Option.bind_some, Dictionary.lookup_map,
          Option.map_eq_none_iff] at habsent
        rw [Option.map_some, deleteFromSource, habsent]
  refine ⟨⟨pc.attribs.map (deleteFromAttribs attrib (some s)),
    pc.sources.map (deleteFromSource attrib s)⟩, rfl, ?_⟩
  have htrees : ∀ held : Finset Locks.Mutex, (∀ name, Locks.Mutex.attrib name ∉ held) →
      (∀ name, Locks.Mutex.source name ∉ held) →
      Locks.deleteFromTrees attrib (some s) pc.named held =
        .ok (some (PlayerPC.named ⟨pc.attribs.map (deleteFromAttribs attrib (some s)),
          pc.sources.map (deleteFromSource attrib s)⟩), held) := by
    intro held hattrib hsource
    have hspec := Locks.deleteFromSources_spec hsource attrib (some s) pc.named.sources
    rw [if_pos ⟨s, rfl, habsent⟩] at hspec
    have hattribs : Locks.deleteFromAttribs attrib (some s) pc.named.attribs held = _ :=
      locked_deleteFromAttribs hattrib attrib s pc.attribs
    unfold Locks.deleteFromTrees
    rw [bind_of_ok hattribs, bind_of_ok hspec, hsame]
    rfl
  have hlocked := Locks.withinTree_of_ok pc.named.attribs (m := .attribs)
    (Finset.notMem_empty _) fun held hheld ↦
      Locks.withinTree_of_ok pc.named.sources (m := .sources)
        (fun hmem ↦ by simpa using hheld hmem) fun held' hheld' ↦
          htrees held'
            (fun name hmem ↦ by
              simpa using hheld'.trans (Finset.insert_subset_insert _ hheld) hmem)
            (fun name hmem ↦ by
              simpa using hheld'.trans (Finset.insert_subset_insert _ hheld) hmem)
  exact (Prod.mk.inj (Except.ok.inj (hrun.symm.trans hlocked))).1

/-! ## Examples -/

/-- The attribute `sex`. -/
def sexName : CString :=
  ⟨[115, 101, 120], by decide⟩

/-- The source `race`. -/
def raceSource : CString :=
  ⟨[114, 97, 99, 101], by decide⟩

/-- Two sources have the attribute, and one loses it. -/
theorem deleteAttribute_exact_two : ∃ pc pc' : PlayerPC,
    deleteAttribute sexName (some raceSource) pc = some pc' ∧
      Deleted sexName (some raceSource) pc pc' := by
  have hrace := wellFormed_fresh.added raceSource [(sexName, .number 1)]
  have hpc := hrace.added Locks.aggregateSource [(sexName, .number 2)]
  obtain ⟨pc', hrun, hdeleted⟩ := (deleteAttribute_exact_iff hpc sexName (some raceSource)).mpr
    ⟨raceSource, rfl, fun _ ↦ ⟨rank Locks.aggregateSource, by decide, by
      rw [hpc.transposed, hrace.entry_added, if_pos rfl]
      exact nofun⟩⟩
  exact ⟨_, pc', hrun, hdeleted⟩

/-- The last source of an attribute loses it, and the attribute stays. -/
theorem emptied_attribute_stays : ∃ pc : PlayerPC, WellFormed pc ∧
    ¬ ∃ pc', deleteAttribute sexName (some raceSource) pc = some pc' ∧
      Deleted sexName (some raceSource) pc pc' := by
  have hpc := wellFormed_fresh.added raceSource [(sexName, .number 1)]
  have hentry : ∀ other, entry (PlayerPC.added .fresh raceSource [(sexName, .number 1)]).attribTrees
      (rank sexName) other = if other = rank raceSource then some (.number 1) else none := by
    intro other
    rw [hpc.transposed, wellFormed_fresh.entry_added]
    split_ifs
    · simp [latest, Value.clone]
    · rfl
  refine ⟨_, hpc, ?_⟩
  rintro ⟨pc', hrun, hdeleted⟩
  obtain rfl := Option.some.inj hrun
  have hpruned := hdeleted.prunedAttribs
  rw [attribTrees_deleted] at hpruned
  obtain ⟨other, hother, hvalue⟩ :=
    (pruned_deleteFromAttribs_iff hpc.attribs sexName raceSource).mp hpruned
      (by rw [hentry, if_pos rfl]; exact Option.some_ne_none _)
  rw [hentry, if_neg hother] at hvalue
  exact hvalue rfl

end HavokMud.Attributes
