import HavokMud.Attributes.Locks

/-!
# When the calls on attributes return

A call that returns holds no mutex, as every lock has its unlock on the same path.  What can go
wrong is that a callee takes a lock of its caller again, or that a call follows NULL.
-/

namespace HavokMud.Attributes.Locks

open BinaryTree BTree SearchTree Json Interaction Locking

section Finding

variable {β : Type} {held : Finset Mutex}

/-- The named items that a tree can be asked for, or be given, in this order. -/
def Named.Takes (names : List (Option CString)) : Named β → Prop
  | .named tree => (∀ name ∈ names, name ≠ none) ∨ names = [none] ∧ tree = .nil
  | .nameless _ => names = []

theorem Named.tidy_find (name : Option CString) (tree : Named β) : Tidy (tree.find name) := by
  unfold Named.find
  split
  · split
    · exact Tidy.pure _
    · split
      · exact Tidy.pure _
      · exact Tidy.crash
  · exact Tidy.crash

theorem Named.balanced_find_iff {name : Option CString} {tree : Named β} :
    Balanced (tree.find name) held ↔ tree.Takes [name] := by
  cases tree with
  | nameless item => simp [Named.find, Named.Takes]
  | named tree =>
      cases name with
      | some name => simp [Named.find, Named.Takes]
      | none => cases tree <;> simp [Named.find, Named.Takes]

theorem put_ne_nil (name : CString) (item : β) (tree : BinaryTree (CString × β)) :
    Dictionary.put compareKeys false name item tree ≠ .nil := by
  unfold Dictionary.put
  cases tree with
  | nil => simp [Dictionary.lookup, SearchTree.find, Dictionary.add, SearchTree.insert]
  | node e l r =>
      split_ifs
      · unfold Dictionary.assign
        split_ifs <;> simp
      · simp only [Dictionary.add, SearchTree.insert, Bool.false_eq_true, if_false]
        split_ifs <;> simp

/-- An item for one name, and then items for the others. -/
theorem Named.takes_cons (name : Option CString) (names : List (Option CString)) (item : β)
    (tree : Named β) :
    tree.Takes (name :: names) ↔ tree.Takes [name] ∧ (tree.put name item).Takes names := by
  cases tree with
  | nameless old => simp [Named.Takes]
  | named tree =>
      cases name with
      | some name => simp [Named.Takes, Named.put, put_ne_nil]
      | none => simp [Named.Takes, Named.put, and_comm]

end Finding

/-! ## Writing -/

section Writing

variable {held : Finset Mutex} {cJSONParse : Text → Option Value}

theorem tidy_storeValue (m : Mutex) (source : CString) (value : Value) (subTree : Tree) :
    Tidy (storeValue m source value subTree) := by
  refine ((Tidy.pure _).within m).bind fun item ↦ ?_
  cases item with
  | none => exact (Tidy.pure _).within m
  | some item => exact Tidy.pure _

theorem balanced_storeValue {m : Mutex} (hm : m ∉ held) (source : CString) (value : Value)
    (subTree : Tree) : Balanced (storeValue m source value subTree) held := by
  unfold storeValue
  rw [balanced_bind_iff ((Tidy.pure _).within m)]
  refine ⟨_, within_of_ok hm (pure_eq _ _), ?_⟩
  cases Dictionary.lookup compareKeys source subTree with
  | none => exact ⟨_, within_of_ok hm (pure_eq _ _)⟩
  | some item => exact balanced_pure _

theorem tidy_addChild (source : CString) (trees : Named Tree × Named Value)
    (child : Option CString × Value) : Tidy (addChild source trees child) :=
  (Named.tidy_find _ _).bind fun _ ↦ (tidy_storeValue _ _ _ _).bind fun _ ↦
    (Named.tidy_find _ _).bind fun _ ↦ Tidy.pure _

/-- A turn of the loop returns where the comparisons do not meet NULL. -/
theorem exists_addChild (hfree : ∀ name, Mutex.attrib name ∉ held) (source : CString)
    {trees : Named Tree × Named Value} {child : Option CString × Value}
    (hattribs : trees.1.Takes [child.1]) (hsource : trees.2.Takes [child.1]) :
    ∃ subTree, addChild source trees child held =
      .ok ((trees.1.put child.1 subTree, trees.2.put child.1 child.2.clone), held) := by
  obtain ⟨found, hfound⟩ : Balanced (trees.1.find child.1) held :=
    Named.balanced_find_iff.mpr hattribs
  obtain ⟨subTree, hstore⟩ := balanced_storeValue (hfree (child.1.map rank)) source
    child.2.clone (found.getD .nil)
  obtain ⟨old, hold⟩ : Balanced (trees.2.find child.1) held :=
    Named.balanced_find_iff.mpr hsource
  refine ⟨subTree, ?_⟩
  unfold addChild
  rw [bind_of_ok hfound, bind_of_ok hstore, bind_of_ok hold, pure_eq]

theorem takes_of_addChild {source : CString} {trees trees' : Named Tree × Named Value}
    {child : Option CString × Value}
    (h : addChild source trees child held = .ok (trees', held)) :
    trees.1.Takes [child.1] ∧ trees.2.Takes [child.1] := by
  obtain ⟨found, held₁, hfound, h⟩ := bind_eq_ok.mp h
  obtain rfl := Named.tidy_find _ _ _ _ _ hfound
  obtain ⟨subTree, held₂, hstore, h⟩ := bind_eq_ok.mp h
  obtain rfl := tidy_storeValue _ _ _ _ _ _ _ hstore
  obtain ⟨old, held₃, hold, -⟩ := bind_eq_ok.mp h
  obtain rfl := Named.tidy_find _ _ _ _ _ hold
  exact ⟨Named.balanced_find_iff.mp ⟨found, hfound⟩, Named.balanced_find_iff.mp ⟨old, hold⟩⟩

/-- The loop returns if every name finds its place. -/
theorem balanced_loop_iff (hfree : ∀ name, Mutex.attrib name ∉ held) (source : CString)
    (members : List (Option CString × Value)) (trees : Named Tree × Named Value) :
    Balanced (members.foldlM (addChild source) trees) held ↔
      trees.1.Takes (members.map Prod.fst) ∧ trees.2.Takes (members.map Prod.fst) := by
  induction members generalizing trees with
  | nil =>
      obtain ⟨attribs, tree⟩ := trees
      cases attribs <;> cases tree <;> simp [Named.Takes]
  | cons child members ih =>
      rw [List.foldlM_cons, balanced_bind_iff (tidy_addChild source trees child), List.map_cons]
      constructor
      · rintro ⟨trees', hchild, hrest⟩
        obtain ⟨hattribs, hsource⟩ := takes_of_addChild hchild
        obtain ⟨item, hitem⟩ := exists_addChild hfree source hattribs hsource
        rw [hitem] at hchild
        cases hchild
        obtain ⟨hattribs', hsource'⟩ := (ih _).mp hrest
        exact ⟨(Named.takes_cons _ _ _ _).mpr ⟨hattribs, hattribs'⟩,
          (Named.takes_cons _ _ _ _).mpr ⟨hsource, hsource'⟩⟩
      · rintro ⟨hattribs, hsource⟩
        obtain ⟨item, hitem⟩ := exists_addChild hfree source
          ((Named.takes_cons _ _ .nil _).mp hattribs).1
          ((Named.takes_cons _ _ .null _).mp hsource).1
        refine ⟨_, hitem, (ih _).mpr ⟨((Named.takes_cons _ _ _ _).mp hattribs).2,
          ((Named.takes_cons _ _ _ _).mp hsource).2⟩⟩

/-- The names that the text has for `AddJSONToTrees` find their places. -/
def PlayerPC.Takes (pc : PlayerPC) (cJSONParse : Text → Option Value) (json : Text)
    (source : CString) : Prop :=
  ∃ jsonTree, cJSONParse json = some jsonTree ∧
    (pc.attribs.getD (.named .nil)).Takes ((children jsonTree).map Prod.fst) ∧
    ((Dictionary.lookup compareKeys source (pc.sources.getD .nil)).getD (.named .nil)).Takes
      ((children jsonTree).map Prod.fst)

theorem tidy_addChildren (source : CString) (jsonTree : Option Value) (attribs : Named Tree)
    (sources : BinaryTree (CString × Named Value)) :
    Tidy (addChildren source jsonTree attribs sources) :=
  (Tidy.follow _).bind fun _ ↦ (Tidy.foldlM (tidy_addChild source) _ _).bind fun _ ↦ Tidy.pure _

theorem balanced_addChildren_iff (hfree : ∀ name, Mutex.attrib name ∉ held) {source : CString}
    {jsonTree : Option Value} {attribs : Named Tree}
    {sources : BinaryTree (CString × Named Value)} :
    Balanced (addChildren source jsonTree attribs sources) held ↔
      ∃ value, jsonTree = some value ∧ attribs.Takes ((children value).map Prod.fst) ∧
        ((Dictionary.lookup compareKeys source sources).getD (.named .nil)).Takes
          ((children value).map Prod.fst) := by
  unfold addChildren
  rw [balanced_bind_iff (Tidy.follow _)]
  cases jsonTree with
  | none => simp [follow]
  | some value =>
      simp only [follow, pure_eq, Except.ok.injEq, Prod.mk.injEq, and_true, exists_eq_left',
        Option.some.injEq]
      rw [balanced_bind_pure_iff (Tidy.foldlM (tidy_addChild source) _ _)]
      exact balanced_loop_iff hfree source (children value) (attribs, _)

theorem tidy_addJSONToTrees (json : Text) (source : CString) (pc : PlayerPC) :
    Tidy (addJSONToTrees cJSONParse json source pc) := by
  unfold addJSONToTrees
  cases stripWhitespace json with
  | none => exact Tidy.pure _
  | some json =>
      exact (((tidy_addChildren source (cJSONParse json) _ _).within _).within _).within _

theorem balanced_addJSONToTrees_iff {json : Text} {source : CString} {pc : PlayerPC} :
    Balanced (addJSONToTrees cJSONParse json source pc) ∅ ↔
      ∀ text, stripWhitespace json = some text → pc.Takes cJSONParse text source := by
  unfold addJSONToTrees
  cases stripWhitespace json with
  | none => simp
  | some text =>
      have htidy := tidy_addChildren source (cJSONParse text) (pc.attribs.getD (.named .nil))
        (pc.sources.getD .nil)
      dsimp only
      rw [balanced_within_iff ((htidy.within _).within _), balanced_within_iff (htidy.within _),
        balanced_within_iff htidy, balanced_addChildren_iff (by simp)]
      simp [PlayerPC.Takes]

end Writing

/-! ## Reading -/

section Reading

variable {held : Finset Mutex} {combine : Option Value → CString → Tree → Value}
  {pc : Option PlayerPC} {attrib source : Option CString}

/-- The attribute is not there, or the source is given and has it. -/
def ReadSafe (attrib source : Option CString) (attribs : Named Tree) : Prop :=
  match attrib, attribs with
  | none, _ => True
  | some _, .nameless _ => False
  | some attrib, .named trees =>
      ∀ subTree, Dictionary.lookup compareKeys attrib trees = some subTree →
        ∃ name, source = some name ∧ (Dictionary.lookup compareKeys name subTree).isSome

theorem tidy_onSubTree {body : Tree → Locking Mutex (Option Value)}
    (hbody : ∀ subTree, Tidy (body subTree)) (name : CString) (found : Option Tree) :
    Tidy (onSubTree name body found) := by
  cases found with
  | none => exact Tidy.pure _
  | some subTree => exact (hbody subTree).within _

theorem tidy_onAttribute {body : CString → Tree → Locking Mutex (Option Value)}
    (hbody : ∀ attrib subTree, Tidy (body attrib subTree)) :
    Tidy (onAttribute pc attrib body) := by
  unfold onAttribute
  split
  · exact ((Named.tidy_find _ _).bind (tidy_onSubTree (hbody _) _)).within _
  · exact Tidy.pure _

theorem tidy_getAttributeFrom (source : CString) : Tidy (getAttributeFrom pc attrib source) :=
  tidy_onAttribute fun _ _ ↦ (Tidy.follow _).bind fun _ ↦ Tidy.pure _

theorem tidy_getAttribute : Tidy (getAttribute combine pc attrib source) := by
  cases source with
  | some source => exact tidy_getAttributeFrom source
  | none => exact tidy_onAttribute fun _ _ ↦ (tidy_getAttributeFrom _).bind fun _ ↦ Tidy.pure _

theorem balanced_onAttribute_iff {attribs : Named Tree} {name : CString}
    {body : CString → Tree → Locking Mutex (Option Value)}
    (hbody : ∀ attrib subTree, Tidy (body attrib subTree))
    (hpc : pc.bind PlayerPC.attribs = some attribs) :
    Balanced (onAttribute pc (some name) body) held ↔
      .attribs ∉ held ∧ ∃ trees, attribs = .named trees ∧
        ∀ subTree, Dictionary.lookup compareKeys name trees = some subTree →
          Balanced (within (.attrib (some (rank name))) (body name subTree))
            (insert .attribs held) := by
  unfold onAttribute
  simp only [hpc]
  rw [balanced_within_iff ((Named.tidy_find _ _).bind (tidy_onSubTree (hbody name) name)),
    balanced_bind_iff (Named.tidy_find _ _)]
  cases attribs with
  | nameless item => simp [Named.find]
  | named trees =>
      simp only [Named.find, pure_eq, Except.ok.injEq, Prod.mk.injEq, and_true, exists_eq_left',
        Named.named.injEq]
      cases Dictionary.lookup compareKeys name trees <;> simp [onSubTree]

/-- With a source, the attribute has to have it. -/
theorem balanced_getAttributeFrom_iff {name source : CString} {attribs : Named Tree}
    (hpc : pc.bind PlayerPC.attribs = some attribs) :
    Balanced (getAttributeFrom pc (some name) source) ∅ ↔
      ReadSafe (some name) (some source) attribs := by
  have htidy : ∀ (_ : CString) (subTree : Tree), Tidy (μ := Mutex) (do
      let item ← follow (Dictionary.lookup compareKeys source subTree)
      pure (some item.clone)) :=
    fun _ subTree ↦ (Tidy.follow _).bind fun _ ↦ Tidy.pure _
  unfold getAttributeFrom
  rw [balanced_onAttribute_iff htidy hpc]
  cases attribs with
  | nameless item => simp [ReadSafe]
  | named trees =>
      simp only [Finset.notMem_empty, not_false_eq_true, true_and, Named.named.injEq,
        exists_eq_left', ReadSafe, Option.some.injEq]
      refine forall₂_congr fun subTree _ ↦ ?_
      rw [balanced_within_iff (htidy name subTree), balanced_bind_iff (Tidy.follow _)]
      cases Dictionary.lookup compareKeys source subTree <;> simp [follow]

/-- Without a source, the call for the way of aggregation waits for the lock of its caller. -/
theorem balanced_getAttribute_iff {name : CString} {attribs : Named Tree}
    (hpc : pc.bind PlayerPC.attribs = some attribs) :
    Balanced (getAttribute combine pc (some name) source) ∅ ↔
      ReadSafe (some name) source attribs := by
  cases source with
  | some source => exact balanced_getAttributeFrom_iff hpc
  | none =>
      have htidy : ∀ (name' : CString) (subTree : Tree), Tidy (do
          let jsonItem ← getAttributeFrom pc (some name) aggregateSource
          pure (some (combine jsonItem name' subTree))) :=
        fun _ _ ↦ (tidy_getAttributeFrom _).bind fun _ ↦ Tidy.pure _
      unfold getAttribute
      rw [balanced_onAttribute_iff htidy hpc]
      cases attribs with
      | nameless item => simp [ReadSafe]
      | named trees =>
          simp only [Finset.notMem_empty, not_false_eq_true, true_and, Named.named.injEq,
            exists_eq_left', ReadSafe]
          refine forall₂_congr fun subTree _ ↦ iff_of_false ?_ (by simp)
          rw [balanced_within_iff (htidy name subTree), balanced_bind_iff (tidy_getAttributeFrom _)]
          rintro ⟨-, item, hitem, -⟩
          have hbalanced : Balanced (getAttributeFrom pc (some name) aggregateSource) _ :=
            ⟨item, hitem⟩
          unfold getAttributeFrom at hbalanced
          rw [balanced_onAttribute_iff _ hpc] at hbalanced
          · simp at hbalanced
          · exact fun _ _ ↦ (Tidy.follow _).bind fun _ ↦ Tidy.pure _

end Reading

/-! ## Destroying -/

section Destroying

variable {α : Type} {held : Finset Mutex} {free : α → Locking Mutex Unit}

/-- A leaf goes, if there is one. -/
theorem exists_destroyLeaf (hfree : ∀ a, free a held = .ok ((), held)) (tree : BinaryTree α) :
    ∃ result, destroyLeaf free tree held = .ok (result, held) ∧
      (result = none → tree = .nil) ∧
      ∀ tree', result = some tree' → tree'.numNodes + 1 = tree.numNodes := by
  induction tree with
  | nil => exact ⟨none, rfl, fun _ ↦ rfl, nofun⟩
  | node a l r ihl ihr =>
      obtain ⟨left, hleft, hl, hlsize⟩ := ihl
      rw [destroyLeaf, bind_of_ok hleft]
      cases left with
      | some l' =>
          refine ⟨_, rfl, nofun, ?_⟩
          rintro tree' ⟨⟩
          have hsize := hlsize l' rfl
          simp only [BinaryTree.numNodes]
          omega
      | none =>
          obtain rfl := hl rfl
          obtain ⟨right, hright, hr, hrsize⟩ := ihr
          dsimp only
          rw [bind_of_ok hright]
          cases right with
          | some r' =>
              refine ⟨_, rfl, nofun, ?_⟩
              rintro tree' ⟨⟩
              have hsize := hrsize r' rfl
              simp only [BinaryTree.numNodes]
              omega
          | none =>
              obtain rfl := hr rfl
              dsimp only
              rw [bind_of_ok (hfree a)]
              refine ⟨_, rfl, nofun, ?_⟩
              rintro tree' ⟨⟩
              rfl

/-- The loop frees all items. -/
theorem destroyLeaves_eq (hfree : ∀ a, free a held = .ok ((), held)) (tree : BinaryTree α) :
    destroyLeaves free tree.numNodes tree held = .ok (.nil, held) := by
  induction hsize : tree.numNodes generalizing tree with
  | zero =>
      cases tree with
      | nil => rfl
      | node a l r => simp [BinaryTree.numNodes] at hsize
  | succ n ih =>
      obtain ⟨result, hresult, hnil, hsizes⟩ := exists_destroyLeaf hfree tree
      rw [destroyLeaves, bind_of_ok hresult]
      cases result with
      | none =>
          rw [hnil rfl] at hsize
          cases hsize
      | some tree' => exact ih tree' (by have := hsizes tree' rfl; omega)

theorem destroySubTree_eq {m : Mutex} (hm : m ∉ held) (subTree : BinaryTree α) :
    destroySubTree m subTree held = .ok ((), held) := by
  apply within_of_ok hm
  rw [bind_of_ok (destroyLeaves_eq (fun _ ↦ rfl) subTree), pure_eq]

theorem destroyTree_eq {m : Mutex} (hm : m ∉ held)
    (hfree : ∀ a, free a (insert m held) = .ok ((), insert m held))
    (tree : Option (BinaryTree α)) : destroyTree m free tree held = .ok ((), held) := by
  cases tree with
  | none => rfl
  | some tree =>
      apply within_of_ok hm
      rw [bind_of_ok (destroyLeaves_eq hfree tree), pure_eq]

/-- `DestroyAttributes` returns, whatever the pc holds. -/
theorem balanced_destroyAttributes (pc : Option PlayerPC) :
    Balanced (destroyAttributes pc) ∅ := by
  cases pc with
  | none => exact balanced_pure _
  | some pc =>
      refine ⟨some ⟨none, none⟩, ?_⟩
      unfold destroyAttributes
      dsimp only
      rw [bind_of_ok (destroyTree_eq (by simp) (fun e ↦ destroySubTree_eq (by simp) _) _),
        bind_of_ok (destroyTree_eq (by simp) (fun e ↦ destroySubTree_eq (by simp) _) _), pure_eq]

end Destroying

/-! ## Deleting -/

section Deleting

variable {held : Finset Mutex}

theorem balanced_deleteFromSubTree (hfree : ∀ name, Mutex.attrib name ∉ held) (name : CString)
    (subTree : Tree) (trees : BinaryTree (CString × Tree)) (source : Option CString) :
    Balanced (deleteFromSubTree name subTree trees source) held := by
  cases source with
  | none => exact ⟨_, bind_of_ok (destroySubTree_eq (hfree _) subTree) _⟩
  | some source => exact ⟨_, bind_of_ok (within_of_ok (hfree _) (pure_eq _ _)) _⟩

theorem deleteFromAttribs_nameless (name : CString) (source : Option CString) (item : Tree) :
    deleteFromAttribs name source (some (.nameless item)) held = .error .crash :=
  rfl

theorem balanced_deleteFromAttribs (hfree : ∀ name, Mutex.attrib name ∉ held) (name : CString)
    (source : Option CString) {attribs : Option (Named Tree)}
    (hnamed : ∀ item, attribs ≠ some (.nameless item)) :
    Balanced (deleteFromAttribs name source attribs) held := by
  match attribs with
  | none => exact balanced_pure _
  | some (.nameless item) => exact absurd rfl (hnamed item)
  | some (.named trees) =>
      cases hlookup : Dictionary.lookup compareKeys name trees with
      | none =>
          simp only [deleteFromAttribs, hlookup]
          exact balanced_pure _
      | some subTree =>
          simp only [deleteFromAttribs, hlookup]
          obtain ⟨trees', htrees⟩ := balanced_deleteFromSubTree hfree name subTree trees source
          exact ⟨_, bind_of_ok htrees _⟩

/-- `SourceTreeDeleteAttrib` descends to the left until it follows NULL. -/
theorem exists_sourceTreeDeleteAttrib (held : Finset Mutex) (attrib : CString)
    (tree : BinaryTree (CString × Named Value)) :
    ∃ stop, sourceTreeDeleteAttrib attrib tree held = .error stop := by
  induction tree with
  | nil => exact ⟨.crash, rfl⟩
  | node e l r ihl _ =>
      obtain ⟨stop, hstop⟩ := ihl
      refine ⟨stop, ?_⟩
      rw [sourceTreeDeleteAttrib, bind_of_error hstop]

/-- The tree of a source is locked twice. -/
theorem deleteFromSource_eq (hfree : ∀ name, Mutex.source name ∉ held) (attrib source : CString)
    (subTree : Named Value) (sources : BinaryTree (CString × Named Value)) :
    deleteFromSource attrib source subTree sources held = .error .deadlock := by
  apply within_of_error (hfree _)
  apply bind_of_error
  exact within_of_mem (Finset.mem_insert_self _ _)

/-- A source is given, and it is not there. -/
theorem deleteFromSources_spec (hfree : ∀ name, Mutex.source name ∉ held) (name : CString)
    (source : Option CString) (sources : Option (BinaryTree (CString × Named Value))) :
    if ∃ s, source = some s ∧ sources.bind (Dictionary.lookup compareKeys s) = none then
      deleteFromSources name source sources held = .ok (sources, held)
    else ∃ stop, deleteFromSources name source sources held = .error stop := by
  match source, sources with
  | none, none =>
      rw [if_neg (by simp)]
      exact ⟨.crash, rfl⟩
  | none, some sources =>
      rw [if_neg (by simp)]
      obtain ⟨stop, hstop⟩ := exists_sourceTreeDeleteAttrib held name sources
      refine ⟨stop, ?_⟩
      unfold deleteFromSources
      dsimp only [follow]
      rw [pure_bind, bind_of_error hstop]
  | some s, none =>
      rw [if_pos ⟨s, rfl, rfl⟩]
      rfl
  | some s, some sources =>
      cases hlookup : Dictionary.lookup compareKeys s sources with
      | none =>
          rw [if_pos ⟨s, rfl, by simpa using hlookup⟩]
          simp only [deleteFromSources, hlookup]
          rfl
      | some subTree =>
          rw [if_neg (by simp [hlookup])]
          refine ⟨.deadlock, ?_⟩
          simp only [deleteFromSources, hlookup]
          rw [map_eq_pure_bind, bind_of_error (deleteFromSource_eq hfree name s subTree sources)]

/-- A source is given that is not there, and no item without a name is in the way. -/
def DeleteSafe (source : Option CString) (pc : PlayerPC) : Prop :=
  (∀ item, pc.attribs ≠ some (.nameless item)) ∧
    ∃ s, source = some s ∧ pc.sources.bind (Dictionary.lookup compareKeys s) = none

theorem deleteFromTrees_spec (hattrib : ∀ name, Mutex.attrib name ∉ held)
    (hsource : ∀ name, Mutex.source name ∉ held) (name : CString) (source : Option CString)
    (pc : PlayerPC) :
    DeleteSafe source pc ∧ Balanced (deleteFromTrees name source pc) held ∨
      ¬ DeleteSafe source pc ∧ ∃ stop, deleteFromTrees name source pc held = .error stop := by
  unfold deleteFromTrees
  by_cases hnamed : ∀ item, pc.attribs ≠ some (.nameless item)
  · obtain ⟨attribs, hattribs⟩ := balanced_deleteFromAttribs hattrib name source hnamed
    have hsources := deleteFromSources_spec hsource name source pc.sources
    split_ifs at hsources with hsafe
    · refine .inl ⟨⟨hnamed, hsafe⟩, some ⟨attribs, pc.sources⟩, ?_⟩
      rw [bind_of_ok hattribs, bind_of_ok hsources, pure_eq]
    · obtain ⟨stop, hstop⟩ := hsources
      refine .inr ⟨fun h ↦ hsafe h.2, stop, ?_⟩
      rw [bind_of_ok hattribs, bind_of_error hstop]
  · refine .inr ⟨fun h ↦ hnamed h.1, .crash, ?_⟩
    push Not at hnamed
    obtain ⟨item, hitem⟩ := hnamed
    rw [hitem, bind_of_error (deleteFromAttribs_nameless name source item)]

/-- The lock of a tree does not change whether the rest returns. -/
theorem withinTree_spec {α β : Type} (held : Finset Mutex) (tree : Option β) (m : Mutex)
    {p : Locking Mutex α} {safe : Prop} (hm : m ∉ held)
    (h : ∀ held', held' ⊆ insert m held →
      safe ∧ Balanced p held' ∨ ¬ safe ∧ ∃ stop, p held' = .error stop) :
    safe ∧ Balanced (withinTree tree m p) held ∨
      ¬ safe ∧ ∃ stop, withinTree tree m p held = .error stop := by
  unfold withinTree
  split_ifs
  · rcases h _ subset_rfl with ⟨hsafe, a, ha⟩ | ⟨hsafe, stop, hstop⟩
    · exact .inl ⟨hsafe, a, within_of_ok hm ha⟩
    · exact .inr ⟨hsafe, stop, within_of_error hm hstop⟩
  · exact h _ (Finset.subset_insert m held)

theorem withinTree_of_ok {α β : Type} {held : Finset Mutex} (tree : Option β) {m : Mutex}
    {p : Locking Mutex α} {a : α} (hm : m ∉ held)
    (h : ∀ held', held' ⊆ insert m held → p held' = .ok (a, held')) :
    withinTree tree m p held = .ok (a, held) := by
  unfold withinTree
  split_ifs
  · exact within_of_ok hm (h _ subset_rfl)
  · exact h _ (Finset.subset_insert m held)

theorem balanced_deleteAttribute_iff {name : CString} {source : Option CString} {pc : PlayerPC} :
    Balanced (deleteAttribute (some name) source (some pc)) ∅ ↔ DeleteSafe source pc := by
  have hspec := withinTree_spec ∅ pc.attribs .attribs (by simp)
    fun held hheld ↦ withinTree_spec held pc.sources .sources
      (fun hmem ↦ by simpa using hheld hmem)
      fun held' hheld' ↦ deleteFromTrees_spec
        (fun name hmem ↦ by simpa using hheld'.trans (Finset.insert_subset_insert _ hheld) hmem)
        (fun name hmem ↦ by simpa using hheld'.trans (Finset.insert_subset_insert _ hheld) hmem)
        name source pc
  rcases hspec with ⟨hsafe, hbalanced⟩ | ⟨hsafe, stop, hstop⟩
  · exact iff_of_true hbalanced hsafe
  · refine iff_of_false ?_ hsafe
    rintro ⟨a, ha⟩
    cases hstop.symm.trans ha

end Deleting

/-! ## The interface -/

section Interface

variable {cJSONParse : Text → Option Value} {combine : Option Value → CString → Tree → Value}
  {pc : Option PlayerPC}

/-- Nothing is NULL that should not be, the text is blank, or its names find their places. -/
def WriteSafe (cJSONParse : Text → Option Value) (json : Option Text) (source : Option CString)
    (pc : Option PlayerPC) : Prop :=
  ∀ text name pc', json = some text → source = some name → pc = some pc' →
    ∀ stripped, stripWhitespace text = some stripped → pc'.Takes cJSONParse stripped name

/-- When a call returns. -/
def Call.Safe (cJSONParse : Text → Option Value) (pc : Option PlayerPC) : Call → Prop
  | .getAttribute attrib source | .getAttributeInt attrib source | .getAttributeBool attrib source
  | .getAttributeString attrib source =>
      ∀ attribs, pc.bind PlayerPC.attribs = some attribs → ReadSafe attrib source attribs
  | .setAttributeString attrib source val =>
      ∀ name, attrib = some name →
        WriteSafe cJSONParse (some (memberText name (stringText val))) source pc
  | .setAttributeInt attrib source val =>
      ∀ name, attrib = some name →
        WriteSafe cJSONParse (some (memberText name (printNumber val))) source pc
  | .setAttributeDouble attrib source sval =>
      ∀ name, attrib = some name →
        WriteSafe cJSONParse (some (memberText name sval)) source pc
  | .setAttributeBool attrib source val =>
      ∀ name, attrib = some name →
        WriteSafe cJSONParse (some (memberText name (boolText val))) source pc
  | .addAttribute json source => WriteSafe cJSONParse json source pc
  | .deleteAttribute attrib source =>
      ∀ name pc', attrib = some name → pc = some pc' → DeleteSafe source pc'
  | .destroyAttributes => True

theorem onAttribute_null {attrib : Option CString}
    (hnull : pc.bind PlayerPC.attribs = none ∨ attrib = none)
    (body : CString → Tree → Locking Mutex (Option Value)) :
    onAttribute pc attrib body = pure none := by
  unfold onAttribute
  rcases hnull with hpc | rfl
  · rw [hpc]
  · cases pc.bind PlayerPC.attribs <;> rfl

theorem getAttribute_null {attrib : Option CString} (source : Option CString)
    (hnull : pc.bind PlayerPC.attribs = none ∨ attrib = none) :
    getAttribute combine pc attrib source = pure none := by
  cases source with
  | none => exact onAttribute_null hnull _
  | some source => exact onAttribute_null hnull _

theorem balanced_get_iff {attrib source : Option CString} :
    Balanced (getAttribute combine pc attrib source) ∅ ↔
      ∀ attribs, pc.bind PlayerPC.attribs = some attribs → ReadSafe attrib source attribs := by
  cases hpc : pc.bind PlayerPC.attribs with
  | none =>
      rw [getAttribute_null source (.inl hpc)]
      exact iff_of_true (balanced_pure _) nofun
  | some attribs =>
      cases attrib with
      | none =>
          rw [getAttribute_null source (.inr rfl)]
          exact iff_of_true (balanced_pure _) fun _ _ ↦ trivial
      | some name =>
          rw [balanced_getAttribute_iff hpc]
          simp

theorem balanced_addAttribute_iff {json : Option Text} {source : Option CString} :
    Balanced (addAttribute cJSONParse json source pc) ∅ ↔
      WriteSafe cJSONParse json source pc := by
  match json, source, pc with
  | some text, some name, some pc =>
      have hmap : Balanced (some <$> addJSONToTrees cJSONParse text name pc) ∅ ↔
          Balanced (addJSONToTrees cJSONParse text name pc) ∅ := by
        rw [map_eq_pure_bind, balanced_bind_pure_iff (tidy_addJSONToTrees _ _ _)]
      refine hmap.trans (balanced_addJSONToTrees_iff.trans ?_)
      simp [WriteSafe]
  | none, _, _ => exact iff_of_true (balanced_pure _) nofun
  | some _, none, _ => exact iff_of_true (balanced_pure _) nofun
  | some _, some _, none => exact iff_of_true (balanced_pure _) nofun

theorem balanced_setAttribute_iff {attrib source : Option CString} {value : Text} :
    Balanced (setAttribute cJSONParse pc attrib source value) ∅ ↔
      ∀ name, attrib = some name →
        WriteSafe cJSONParse (some (memberText name value)) source pc := by
  match attrib, source with
  | none, _ => exact iff_of_true (balanced_pure _) nofun
  | some name, none =>
      refine iff_of_true (balanced_pure _) ?_
      rintro _ _ _ _ _ _ ⟨⟩
  | some name, some source =>
      refine balanced_addAttribute_iff.trans ?_
      simp

theorem balanced_getter_iff {α : Type} {p : Locking Mutex (Option Value)} (hp : Tidy p)
    (f : Option Value → α) (pc' : Option PlayerPC) :
    Balanced ((p >>= fun item ↦ pure (f item)) >>= fun _ ↦ pure pc') ∅ ↔ Balanced p ∅ :=
  (balanced_bind_pure_iff (hp.bind fun _ ↦ Tidy.pure _) _).trans (balanced_bind_pure_iff hp f)

/-- A call returns with all mutexes released exactly if it takes no lock twice and follows no
NULL. -/
theorem attribute_call_returns_iff (call : Call) :
    (∃ pc', call.exec cJSONParse combine pc ∅ = .ok (pc', ∅)) ↔ call.Safe cJSONParse pc := by
  change Balanced (call.exec cJSONParse combine pc) ∅ ↔ _
  cases call with
  | getAttribute attrib source =>
      exact (balanced_bind_pure_iff tidy_getAttribute _).trans balanced_get_iff
  | getAttributeInt attrib source =>
      exact (balanced_getter_iff tidy_getAttribute _ _).trans balanced_get_iff
  | getAttributeBool attrib source =>
      exact (balanced_getter_iff tidy_getAttribute _ _).trans balanced_get_iff
  | getAttributeString attrib source =>
      exact (balanced_getter_iff tidy_getAttribute _ _).trans balanced_get_iff
  | setAttributeString attrib source val => exact balanced_setAttribute_iff
  | setAttributeInt attrib source val => exact balanced_setAttribute_iff
  | setAttributeDouble attrib source sval => exact balanced_setAttribute_iff
  | setAttributeBool attrib source val => exact balanced_setAttribute_iff
  | addAttribute json source => exact balanced_addAttribute_iff
  | deleteAttribute attrib source =>
      match attrib, pc with
      | some name, some pc =>
          refine balanced_deleteAttribute_iff.trans ?_
          simp [Call.Safe]
      | none, _ => exact iff_of_true (balanced_pure _) nofun
      | some name, none => exact iff_of_true (balanced_pure _) nofun
  | destroyAttributes => exact iff_of_true (balanced_destroyAttributes pc) trivial

end Interface

/-- A pc with one attribute of one source. -/
def single (attrib source : CString) (value : Value) : PlayerPC :=
  ⟨some (.named (.node (attrib, .node (source, value) .nil .nil) .nil .nil)),
    some (.node (source, .named (.node (attrib, value) .nil .nil)) .nil .nil)⟩

/-- The combined value of `sex` is never returned, and neither does its deletion return. -/
theorem combined_attribute_deadlocks :
    (Call.getAttribute (some ⟨[115, 101, 120], by decide⟩) none).exec parse (fun _ _ _ ↦ .null)
        (some (single ⟨[115, 101, 120], by decide⟩ ⟨[112, 99], by decide⟩ (.number 1))) ∅ =
      .error .deadlock ∧
    (Call.deleteAttribute (some ⟨[115, 101, 120], by decide⟩)
        (some ⟨[112, 99], by decide⟩)).exec parse (fun _ _ _ ↦ .null)
        (some (single ⟨[115, 101, 120], by decide⟩ ⟨[112, 99], by decide⟩ (.number 1))) ∅ =
      .error .deadlock :=
  ⟨rfl, rfl⟩

end HavokMud.Attributes.Locks
