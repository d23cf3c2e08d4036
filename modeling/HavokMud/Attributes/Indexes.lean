import HavokMud.Attributes.Trees

/-!
# The two trees agree

`AddJSONToTrees` stores every member under its attribute and its source in one tree and under its
source and its attribute in the other, so the one stays the transpose of the other.
-/

namespace HavokMud.Attributes

open BinaryTree BTree SearchTree Json

/-- The value at two keys of a tree of trees. -/
def entry (trees : Trees) (outer inner : List ℕ) : Option Value :=
  (Dictionary.value rank trees outer).bind fun tree ↦ Dictionary.value rank tree inner

/-- The outer tree and every inner one are ordered. -/
structure Ordered (trees : Trees) : Prop where
  outer : Dictionary.Ordered rank trees
  inner : ∀ e ∈ inorder trees, Dictionary.Ordered rank e.2

theorem ordered_nil : Ordered .nil where
  outer := Dictionary.ordered_nil
  inner := by
    intro e he
    cases he

theorem Ordered.inner_of_value {trees : Trees} (h : Ordered trees) {outer : List ℕ} {tree : Tree}
    (hvalue : Dictionary.value rank trees outer = some tree) : Dictionary.Ordered rank tree := by
  obtain ⟨e, he, -, rfl⟩ := h.outer.value_eq_some_iff.mp hvalue
  exact h.inner e he

/-- The tree found at a key, or the new one. -/
theorem Ordered.inner_getD {trees : Trees} (h : Ordered trees) (outer : List ℕ) :
    Dictionary.Ordered rank ((Dictionary.value rank trees outer).getD .nil) := by
  cases hvalue : Dictionary.value rank trees outer with
  | none => exact Dictionary.ordered_nil
  | some tree => exact h.inner_of_value hvalue

theorem value_getD (trees : Trees) (outer inner : List ℕ) :
    Dictionary.value rank ((Dictionary.value rank trees outer).getD .nil) inner =
      entry trees outer inner := by
  unfold entry
  cases Dictionary.value rank trees outer <;> rfl

/-- Every inner tree of a changed tree is the new one or an old one. -/
theorem Ordered.of_values {trees trees' : Trees} (h : Ordered trees) {tree : Tree}
    (htree : Dictionary.Ordered rank tree) (houter : Dictionary.Ordered rank trees')
    (hvalues : ∀ outer found, Dictionary.value rank trees' outer = some found →
      found = tree ∨ Dictionary.value rank trees outer = some found) : Ordered trees' where
  outer := houter
  inner := by
    intro e he
    have hvalue : Dictionary.value rank trees' (rank e.1) = some e.2 :=
      houter.value_eq_some_iff.mpr ⟨e, he, rfl, rfl⟩
    rcases hvalues _ _ hvalue with heq | hold
    · rw [heq]
      exact htree
    · exact h.inner_of_value hold

theorem Ordered.put {trees : Trees} (h : Ordered trees) {tree : Tree}
    (htree : Dictionary.Ordered rank tree) (rebalance : Bool) (k : CString) :
    Ordered (Dictionary.put compareKeys rebalance k tree trees) := by
  apply h.of_values htree (h.outer.put ranks_compareKeys rebalance k tree)
  intro outer found hfound
  rw [h.outer.value_put ranks_compareKeys] at hfound
  split_ifs at hfound with heq
  · exact .inl (Option.some.inj hfound).symm
  · exact .inr hfound

theorem Ordered.assign {trees : Trees} (h : Ordered trees) {tree : Tree}
    (htree : Dictionary.Ordered rank tree) (k : CString) :
    Ordered (Dictionary.assign compareKeys k tree trees) := by
  apply h.of_values htree (h.outer.assign ranks_compareKeys k tree)
  intro outer found hfound
  rw [h.outer.value_assign ranks_compareKeys] at hfound
  split_ifs at hfound with heq
  · obtain ⟨old, -, hnew⟩ := Option.map_eq_some_iff.mp hfound
    exact .inl hnew.symm
  · exact .inr hfound

theorem Ordered.add {trees : Trees} (h : Ordered trees) {tree : Tree}
    (htree : Dictionary.Ordered rank tree) (rebalance : Bool) {k : CString}
    (hfresh : Dictionary.value rank trees (rank k) = none) :
    Ordered (Dictionary.add compareKeys rebalance k tree trees) := by
  apply h.of_values htree (h.outer.add ranks_compareKeys hfresh rebalance tree)
  intro outer found hfound
  rw [h.outer.value_add ranks_compareKeys hfresh] at hfound
  split_ifs at hfound with heq
  · exact .inl (Option.some.inj hfound).symm
  · exact .inr hfound

theorem Ordered.erase {trees : Trees} (h : Ordered trees) (k : CString) :
    Ordered (Dictionary.erase compareKeys k trees) where
  outer := h.outer.erase ranks_compareKeys k
  inner e he := h.inner e ((h.outer.mem_erase ranks_compareKeys).mp he).1

theorem Ordered.balance {trees : Trees} (h : Ordered trees) : Ordered (balance trees) where
  outer := h.outer.balance
  inner := by
    rw [inorder_balance]
    exact h.inner

theorem entry_balance (trees : Trees) : entry (SearchTree.balance trees) = entry trees := by
  funext outer inner
  unfold entry
  rw [Dictionary.value_balance]

/-! ## One member -/

/-- What the values at an attribute are after some members were stored. -/
def latest (members : List (CString × Value)) (attrib : List ℕ) (old : Option Value) :
    Option Value :=
  members.foldl (fun old member ↦ if rank member.1 = attrib then some member.2.clone else old) old

theorem addMember_fst {trees : Trees × Tree} (h : Ordered trees.1) (source : CString)
    (member : CString × Value) :
    Ordered (addMember source trees member).1 ∧ ∀ outer inner,
      entry (addMember source trees member).1 outer inner =
        if inner = rank source then latest [member] outer (entry trees.1 outer inner)
        else entry trees.1 outer inner := by
  unfold addMember
  rw [h.outer.lookup_eq ranks_compareKeys]
  have hsub := h.inner_getD (rank member.1)
  have htree := hsub.put ranks_compareKeys true source member.2.clone
  refine ⟨h.put htree false member.1, ?_⟩
  intro outer inner
  unfold entry
  rw [h.outer.value_put ranks_compareKeys]
  by_cases houter : outer = rank member.1
  · subst houter
    rw [if_pos rfl, Option.bind_some, hsub.value_put ranks_compareKeys, value_getD]
    simp [latest, entry]
  · rw [if_neg houter]
    simp [latest, Ne.symm houter]

theorem addMember_snd {trees : Trees × Tree} (h : Dictionary.Ordered rank trees.2)
    (source : CString)
    (member : CString × Value) :
    Dictionary.Ordered rank (addMember source trees member).2 ∧ ∀ attrib,
      Dictionary.value rank (addMember source trees member).2 attrib =
        latest [member] attrib (Dictionary.value rank trees.2 attrib) := by
  refine ⟨h.put ranks_compareKeys false member.1 member.2.clone, ?_⟩
  intro attrib
  unfold addMember
  rw [h.value_put ranks_compareKeys]
  simp [latest, eq_comm]

/-! ## All members -/

theorem addMembers_fst (trees : Trees × Tree) (h : Ordered trees.1) (source : CString)
    (members : List (CString × Value)) :
    Ordered (members.foldl (addMember source) trees).1 ∧
      ∀ outer inner, entry (members.foldl (addMember source) trees).1 outer inner =
        if inner = rank source then latest members outer (entry trees.1 outer inner)
        else entry trees.1 outer inner := by
  induction members generalizing trees with
  | nil =>
      refine ⟨h, fun outer inner ↦ ?_⟩
      simp [latest]
  | cons member members ih =>
      obtain ⟨hfirst, hentry⟩ := addMember_fst h source member
      obtain ⟨htrees, hentries⟩ := ih _ hfirst
      refine ⟨htrees, ?_⟩
      intro outer inner
      rw [List.foldl_cons, hentries, hentry]
      split_ifs <;> rfl

theorem addMembers_snd (trees : Trees × Tree) (h : Dictionary.Ordered rank trees.2)
    (source : CString) (members : List (CString × Value)) :
    Dictionary.Ordered rank (members.foldl (addMember source) trees).2 ∧
      ∀ attrib, Dictionary.value rank (members.foldl (addMember source) trees).2 attrib =
        latest members attrib (Dictionary.value rank trees.2 attrib) := by
  induction members generalizing trees with
  | nil => exact ⟨h, fun attrib ↦ rfl⟩
  | cons member members ih =>
      obtain ⟨hsecond, hvalue⟩ := addMember_snd h source member
      obtain ⟨htree, hvalues⟩ := ih _ hsecond
      refine ⟨htree, ?_⟩
      intro attrib
      rw [List.foldl_cons, hvalues, hvalue]
      rfl

theorem addMembers_spec (trees : Trees × Tree) (h : Ordered trees.1)
    (hsource : Dictionary.Ordered rank trees.2) (source : CString)
    (members : List (CString × Value)) :
    Ordered (members.foldl (addMember source) trees).1 ∧
      Dictionary.Ordered rank (members.foldl (addMember source) trees).2 ∧
      (∀ outer inner, entry (members.foldl (addMember source) trees).1 outer inner =
        if inner = rank source then latest members outer (entry trees.1 outer inner)
        else entry trees.1 outer inner) ∧
      ∀ attrib, Dictionary.value rank (members.foldl (addMember source) trees).2 attrib =
        latest members attrib (Dictionary.value rank trees.2 attrib) := by
  obtain ⟨htrees, hentries⟩ := addMembers_fst trees h source members
  obtain ⟨htree, hvalues⟩ := addMembers_snd trees hsource source members
  exact ⟨htrees, htree, hentries, hvalues⟩

/-! ## `AddJSONToTrees` -/

def PlayerPC.attribTrees (pc : PlayerPC) : Trees :=
  pc.attribs.getD .nil

def PlayerPC.sourceTrees (pc : PlayerPC) : Trees :=
  pc.sources.getD .nil

/-- The trees are ordered, and one is the transpose of the other. -/
structure WellFormed (pc : PlayerPC) : Prop where
  attribs : Ordered pc.attribTrees
  sources : Ordered pc.sourceTrees
  transposed : ∀ attrib source,
    entry pc.attribTrees attrib source = entry pc.sourceTrees source attrib

theorem wellFormed_fresh : WellFormed .fresh :=
  ⟨ordered_nil, ordered_nil, fun _ _ ↦ rfl⟩

/-- The members that a text has for `AddJSONToTrees` over a `cJSON_Parse`. -/
def membersBy (cJSONParse : Text → Option Value) (js : JSONSource) :
    Option (List (CString × Value)) :=
  js.json.bind fun json ↦ (stripWhitespace json).bind fun text ↦ (cJSONParse text).bind named

/-- The members that a text has for `AddJSONToTrees`. -/
def membersOf (js : JSONSource) : Option (List (CString × Value)) :=
  js.json.bind fun json ↦ (stripWhitespace json).bind fun text ↦ (parse text).bind named

/-- The tree of sources with a place for the source. -/
def withSource (source : CString) (sources : Trees) : Trees :=
  if (Dictionary.lookup compareKeys source sources).isSome then sources
  else Dictionary.add compareKeys true source .nil sources

theorem Ordered.withSource {sources : Trees} (h : Ordered sources) (source : CString) :
    Ordered (withSource source sources) := by
  unfold Attributes.withSource
  rw [h.outer.lookup_eq ranks_compareKeys]
  split_ifs with hfound
  · exact h
  · exact h.add Dictionary.ordered_nil true (Option.not_isSome_iff_eq_none.mp hfound)

theorem Ordered.value_withSource {sources : Trees} (h : Ordered sources) (source : CString)
    (outer : List ℕ) :
    Dictionary.value rank (Attributes.withSource source sources) outer =
      if outer = rank source then some ((Dictionary.value rank sources outer).getD .nil)
      else Dictionary.value rank sources outer := by
  unfold Attributes.withSource
  rw [h.outer.lookup_eq ranks_compareKeys]
  split_ifs with hfound heq heq
  · subst heq
    obtain ⟨tree, htree⟩ := Option.isSome_iff_exists.mp hfound
    rw [htree]
    rfl
  · rfl
  · subst heq
    have hnone := Option.not_isSome_iff_eq_none.mp hfound
    rw [h.outer.value_add ranks_compareKeys hnone, if_pos rfl, hnone]
    rfl
  · rw [h.outer.value_add ranks_compareKeys (Option.not_isSome_iff_eq_none.mp hfound), if_neg heq]

/-- The trees behind the loop of `AddJSONToTrees`. -/
def PlayerPC.looped (pc : PlayerPC) (source : CString) (members : List (CString × Value)) :
    Trees × Tree :=
  members.foldl (addMember source)
    (pc.attribTrees, (Dictionary.value rank pc.sourceTrees (rank source)).getD .nil)

/-- The pc behind `AddJSONToTrees`. -/
def PlayerPC.added (pc : PlayerPC) (source : CString) (members : List (CString × Value)) :
    PlayerPC :=
  ⟨some (balance (pc.looped source members).1),
    some (Dictionary.assign compareKeys source (balance (pc.looped source members).2)
      (withSource source pc.sourceTrees))⟩

theorem sourceTrees_added (pc : PlayerPC) (source : CString) (members : List (CString × Value)) :
    (pc.added source members).sourceTrees =
      Dictionary.assign compareKeys source (balance (pc.looped source members).2)
        (withSource source pc.sourceTrees) :=
  rfl

theorem attribTrees_added (pc : PlayerPC) (source : CString) (members : List (CString × Value)) :
    (pc.added source members).attribTrees = balance (pc.looped source members).1 :=
  rfl

theorem WellFormed.addJSONToTreesBy_eq {pc : PlayerPC} (h : WellFormed pc)
    {cJSONParse : Text → Option Value} {js : JSONSource} {members : List (CString × Value)}
    (hmembers : membersBy cJSONParse js = some members) :
    addJSONToTreesBy cJSONParse js pc = some (pc.added js.source members) := by
  have hlookup : Dictionary.lookup compareKeys js.source (withSource js.source pc.sourceTrees) =
      some ((Dictionary.value rank pc.sourceTrees (rank js.source)).getD .nil) := by
    rw [(h.sources.withSource js.source).outer.lookup_eq ranks_compareKeys,
      h.sources.value_withSource, if_pos rfl]
  obtain ⟨json, hjson, hrest⟩ := Option.bind_eq_some_iff.mp hmembers
  obtain ⟨text, htext, hparse⟩ := Option.bind_eq_some_iff.mp hrest
  unfold addJSONToTreesBy PlayerPC.added PlayerPC.looped
  simp only [hjson, htext, hparse, Option.map_some]
  rw [withSource, PlayerPC.sourceTrees] at hlookup
  rw [hlookup]
  rfl

theorem WellFormed.addJSONToTrees_eq {pc : PlayerPC} (h : WellFormed pc) {js : JSONSource}
    {members : List (CString × Value)} (hmembers : membersOf js = some members) :
    addJSONToTrees js pc = some (pc.added js.source members) := by
  rw [← addJSONToTreesBy_parse]
  exact h.addJSONToTreesBy_eq hmembers

theorem WellFormed.looped {pc : PlayerPC} (h : WellFormed pc) (source : CString)
    (members : List (CString × Value)) :
    Ordered (pc.looped source members).1 ∧ Dictionary.Ordered rank (pc.looped source members).2 ∧
      (∀ attrib other, entry (pc.looped source members).1 attrib other =
        if other = rank source then latest members attrib (entry pc.attribTrees attrib other)
        else entry pc.attribTrees attrib other) ∧
      ∀ attrib, Dictionary.value rank (pc.looped source members).2 attrib =
        latest members attrib (entry pc.sourceTrees (rank source) attrib) := by
  obtain ⟨htrees, htree, hentries, hvalues⟩ := addMembers_spec
    (pc.attribTrees, (Dictionary.value rank pc.sourceTrees (rank source)).getD .nil) h.attribs
    (h.sources.inner_getD _) source members
  refine ⟨htrees, htree, hentries, ?_⟩
  intro attrib
  rw [← value_getD]
  exact hvalues attrib

/-- What a source holds behind `AddJSONToTrees`. -/
theorem WellFormed.entry_added {pc : PlayerPC} (h : WellFormed pc) (source : CString)
    (members : List (CString × Value)) (other attrib : List ℕ) :
    entry (pc.added source members).sourceTrees other attrib =
      if other = rank source then latest members attrib (entry pc.sourceTrees other attrib)
      else entry pc.sourceTrees other attrib := by
  obtain ⟨-, -, -, hvalues⟩ := h.looped source members
  have hwith := h.sources.withSource source
  have hvalue := h.sources.value_withSource source other
  rw [entry, sourceTrees_added, hwith.outer.value_assign ranks_compareKeys, hvalue]
  by_cases heq : other = rank source
  · subst heq
    rw [if_pos rfl, if_pos rfl, if_pos rfl, Option.map_some, Option.bind_some,
      Dictionary.value_balance, hvalues]
  · rw [if_neg heq, if_neg heq, if_neg heq]
    rfl

theorem WellFormed.added {pc : PlayerPC} (h : WellFormed pc) (source : CString)
    (members : List (CString × Value)) : WellFormed (pc.added source members) := by
  obtain ⟨htrees, htree, hentries, -⟩ := h.looped source members
  refine ⟨htrees.balance, (h.sources.withSource source).assign htree.balance source, ?_⟩
  intro attrib other
  rw [h.entry_added, ← h.transposed, attribTrees_added, entry_balance, hentries]

end HavokMud.Attributes
