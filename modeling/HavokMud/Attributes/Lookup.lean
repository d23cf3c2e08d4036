import HavokMud.Attributes.Deletion

/-!
# Looking attributes up

The pcs that the calls of `json_attribs.c` lead to, and what `GetAttribute` finds on them.  An
attribute that is there without the source is not told apart from one that is there with it: the
item that was not found is followed.
-/

namespace HavokMud.Attributes.Locks

open BinaryTree BTree SearchTree Json Interaction Locking

/-- The pcs that `AddJSONToTrees`, which the `SetAttribute*` functions call, and `DeleteAttribute`
lead to.  The mutexes of a deletion are no-ops, so that more deletions return. -/
inductive Reachable (cJSONParse : Text → Option Value) : PlayerPC → Prop
  | fresh : Reachable cJSONParse ⟨none, none⟩
  | added {pc pc' : PlayerPC} {json : Text} {source : CString} :
      Reachable cJSONParse pc → addJSONToTrees cJSONParse json source pc ∅ = .ok (pc', ∅) →
        Reachable cJSONParse pc'
  | deleted {pc pc' : Attributes.PlayerPC} {attrib : CString} {source : Option CString} :
      Reachable cJSONParse pc.named → Attributes.deleteAttribute attrib source pc = some pc' →
        Reachable cJSONParse pc'.named

/-- The `SetAttribute*` functions lead from such a pc to such a pc. -/
theorem Reachable.setAttribute {cJSONParse : Text → Option Value} {pc pc' : PlayerPC}
    (h : Reachable cJSONParse pc) {attrib source : Option CString} {value : Text}
    (hrun : setAttribute cJSONParse (some pc) attrib source value ∅ = .ok (some pc', ∅)) :
    Reachable cJSONParse pc' := by
  match attrib, source with
  | none, _ | some _, none =>
      cases hrun
      exact h
  | some attrib, some source =>
      change (some <$> addJSONToTrees cJSONParse (memberText attrib value) source pc) ∅ = _ at hrun
      rw [map_eq_pure_bind] at hrun
      obtain ⟨pc₁, held, hadded, hsome⟩ := bind_eq_ok.mp hrun
      cases hsome
      exact h.added hadded

/-- No item without a name is on the trees. -/
def PlayerPC.AllNamed (pc : PlayerPC) : Prop :=
  ∀ item, pc.attribs ≠ some (.nameless item)

/-- The tree of an attribute. -/
def PlayerPC.attribute (pc : PlayerPC) (attrib : CString) : Option Tree :=
  match pc.attribs with
  | some (.named trees) => Dictionary.value rank trees (rank attrib)
  | _ => none

/-- The value of an attribute for a source. -/
def PlayerPC.stored (pc : PlayerPC) (attrib source : CString) : Option Value :=
  (pc.attribute attrib).bind fun subTree ↦ Dictionary.value rank subTree (rank source)

/-- The trees are ordered, and all of them have names or none does. -/
structure Sound (pc : PlayerPC) : Prop where
  ordered : ∀ trees, pc.attribs = some (.named trees) → Ordered trees
  named : pc.AllNamed → ∀ sources, pc.sources = some sources → ∀ e ∈ inorder sources,
    ∃ tree, e.2 = .named tree

/-! ## Adding -/

section Adding

variable {held held' : Finset Mutex} {cJSONParse : Text → Option Value} {pc pc' : PlayerPC}
  {trees trees' : Named Tree × Named Value} {source : CString} {child : Option CString × Value}

theorem storeValue_eq {m : Mutex} {value : Value} {subTree subTree' : Tree}
    (h : storeValue m source value subTree held = .ok (subTree', held')) :
    subTree' = Dictionary.put compareKeys true source value subTree := by
  obtain ⟨found, held₁, hfound, h⟩ := bind_eq_ok.mp h
  obtain ⟨-, held₂, hlookup⟩ := within_eq_ok hfound
  obtain rfl : Dictionary.lookup compareKeys source subTree = found := by
    cases hlookup
    rfl
  unfold Dictionary.put
  cases hcase : Dictionary.lookup compareKeys source subTree with
  | some old =>
      rw [hcase] at h
      cases h
      rfl
  | none =>
      rw [hcase] at h
      dsimp only at h
      obtain ⟨-, held₃, hadd⟩ := within_eq_ok h
      cases hadd
      rfl

/-- A turn of the loop with a name goes as it does on trees with names. -/
theorem addChild_eq_ok (h : addChild source trees child held = .ok (trees', held')) :
    ∃ found held₁, trees.1.find child.1 held = .ok (found, held₁) ∧
      trees' = (trees.1.put child.1
        (Dictionary.put compareKeys true source child.2.clone (found.getD .nil)),
          trees.2.put child.1 child.2.clone) := by
  obtain ⟨found, held₁, hfound, h⟩ := bind_eq_ok.mp h
  obtain ⟨subTree, held₂, hstore, h⟩ := bind_eq_ok.mp h
  obtain ⟨old, held₃, -, h⟩ := bind_eq_ok.mp h
  refine ⟨found, held₁, hfound, ?_⟩
  cases h
  rw [storeValue_eq hstore]

/-- The trees of a loop that began at `start`: where those of the attributes have names, they are
ordered, and the trees at the start and the tree of the source have names too. -/
def Kept (start : Named Tree) (trees : Named Tree × Named Value) : Prop :=
  ∀ attribs, trees.1 = .named attribs →
    Ordered attribs ∧ (∃ tree, trees.2 = .named tree) ∧ ∃ first, start = .named first

theorem Kept.addChild {start : Named Tree} (h : Kept start trees)
    (hrun : addChild source trees child held = .ok (trees', held')) : Kept start trees' := by
  obtain ⟨found, held₁, hfound, rfl⟩ := addChild_eq_ok hrun
  obtain ⟨first, second⟩ := trees
  obtain ⟨name, value⟩ := child
  intro attribs' heq
  cases first with
  | nameless item => cases name <;> cases heq
  | named attribs =>
      cases name with
      | none => cases heq
      | some name =>
          obtain ⟨hattribs, ⟨tree, rfl⟩, hstart⟩ := h attribs rfl
          cases heq
          cases hfound
          have hadded := (@addMember_fst (attribs, tree) hattribs source (name, value)).1
          exact ⟨hadded, ⟨_, rfl⟩, hstart⟩

theorem Kept.loop {start : Named Tree} {children : List (Option CString × Value)}
    (h : Kept start trees)
    (hrun : children.foldlM (Locks.addChild source) trees held = .ok (trees', held')) :
    Kept start trees' := by
  induction children generalizing trees held with
  | nil =>
      cases hrun
      exact h
  | cons child children ih =>
      rw [List.foldlM_cons] at hrun
      obtain ⟨trees₁, held₁, hchild, hrest⟩ := bind_eq_ok.mp hrun
      exact ih (h.addChild hchild) hrest

/-- `assign` brings no value but its own. -/
theorem mem_assign {β : Type} {k : CString} {b : β} {t : BinaryTree (CString × β)}
    {e : CString × β} (he : e ∈ inorder (Dictionary.assign compareKeys k b t)) :
    e.2 = b ∨ e ∈ inorder t := by
  induction t with
  | nil => cases he
  | node x l r ihl ihr =>
      rw [inorder_node, List.mem_append, List.mem_cons]
      rw [Dictionary.assign] at he
      split_ifs at he
      all_goals rw [inorder_node, List.mem_append, List.mem_cons] at he
      · rcases he with hl | rfl | hr
        · exact .inr (.inl hl)
        · exact .inl rfl
        · exact .inr (.inr (.inr hr))
      · rcases he with hl | rfl | hr
        · exact (ihl hl).imp_right .inl
        · exact .inr (.inr (.inl rfl))
        · exact .inr (.inr (.inr hr))
      · rcases he with hl | rfl | hr
        · exact .inr (.inl hl)
        · exact .inr (.inr (.inl rfl))
        · exact (ihr hr).imp_right fun h ↦ .inr (.inr h)

theorem mem_of_lookup {β : Type} {k : CString} {b : β} {t : BinaryTree (CString × β)}
    (h : Dictionary.lookup compareKeys k t = some b) : ∃ e ∈ inorder t, e.2 = b := by
  obtain ⟨e, hfind, rfl⟩ := Option.map_eq_some_iff.mp h
  exact ⟨e, (find_some hfind).1, rfl⟩

theorem allNamed_of_getD {trees : Trees} (h : pc.attribs.getD (.named .nil) = .named trees) :
    pc.AllNamed := by
  intro item hitem
  rw [hitem] at h
  cases h

theorem Sound.sources_named (h : Sound pc) (hnamed : pc.AllNamed) {e : CString × Named Value}
    (he : e ∈ inorder (pc.sources.getD .nil)) : ∃ tree, e.2 = .named tree := by
  cases hsources : pc.sources with
  | none =>
      rw [hsources] at he
      cases he
  | some sources =>
      rw [hsources] at he
      exact h.named hnamed sources hsources e he

/-- The trees that `AddJSONToTrees` starts its loop with. -/
theorem Sound.kept (h : Sound pc) (source : CString) :
    Kept (pc.attribs.getD (.named .nil)) (pc.attribs.getD (.named .nil),
      (Dictionary.lookup compareKeys source (pc.sources.getD .nil)).getD (.named .nil)) := by
  intro attribs heq
  have hnamed := allNamed_of_getD heq
  refine ⟨?_, ?_, attribs, heq⟩
  · cases hattribs : pc.attribs with
    | none =>
        rw [hattribs] at heq
        cases heq
        exact ordered_nil
    | some trees =>
        rw [hattribs, Option.getD_some] at heq
        exact h.ordered attribs (hattribs.trans (congrArg some heq))
  · cases hlookup : Dictionary.lookup compareKeys source (pc.sources.getD .nil) with
    | none => exact ⟨.nil, rfl⟩
    | some found =>
        obtain ⟨e, he, rfl⟩ := mem_of_lookup hlookup
        exact h.sources_named hnamed he

theorem Sound.addJSONToTrees (h : Sound pc) {json : Text}
    (hrun : addJSONToTrees cJSONParse json source pc ∅ = .ok (pc', ∅)) : Sound pc' := by
  unfold Locks.addJSONToTrees at hrun
  cases hjson : stripWhitespace json with
  | none =>
      simp only [hjson, pure_eq] at hrun
      cases hrun
      refine ⟨fun attribs heq ↦ (h.kept source attribs (Option.some.inj heq)).1, ?_⟩
      rintro hnamed sources heq e he
      cases heq
      refine h.sources_named (fun item hitem ↦ hnamed item ?_) he
      rw [hitem]
      rfl
  | some text =>
      simp only [hjson] at hrun
      obtain ⟨-, held₁, hrun⟩ := within_eq_ok hrun
      obtain ⟨-, held₂, hrun⟩ := within_eq_ok hrun
      obtain ⟨-, held₃, hrun⟩ := within_eq_ok hrun
      obtain ⟨value, held₄, -, hrun⟩ := bind_eq_ok.mp hrun
      obtain ⟨⟨first, second⟩, held₅, hloop, hrun⟩ := bind_eq_ok.mp hrun
      cases hrun
      have hkept := (h.kept source).loop hloop
      constructor
      · intro attribs heq
        cases first with
        | nameless item => cases heq
        | named trees =>
            cases heq
            exact (hkept trees rfl).1.balance
      · rintro hnamed sources heq e he
        cases heq
        cases first with
        | nameless item => exact absurd rfl (hnamed item)
        | named trees =>
            obtain ⟨-, ⟨tree, rfl⟩, start, hstart⟩ := hkept trees rfl
            rcases mem_assign he with hvalue | hold
            · exact ⟨balance tree, hvalue⟩
            · split_ifs at hold
              · exact h.sources_named (allNamed_of_getD hstart) hold
              · rcases Dictionary.mem_inorder_add.mp hold with rfl | hold
                · exact ⟨.nil, rfl⟩
                · exact h.sources_named (allNamed_of_getD hstart) hold

end Adding

/-! ## Deleting -/

theorem Sound.deleteAttribute {pc pc' : Attributes.PlayerPC} (h : Sound pc.named)
    {attrib : CString} {source : Option CString}
    (hrun : Attributes.deleteAttribute attrib source pc = some pc') : Sound pc'.named := by
  cases source with
  | none =>
      rw [deleteAttribute_eq_none] at hrun
      cases hrun
  | some s =>
      obtain rfl := Option.some.inj hrun
      constructor
      · intro trees heq
        obtain ⟨attribs', hattribs', hnamed⟩ := Option.map_eq_some_iff.mp heq
        obtain ⟨attribs, hattribs, rfl⟩ := Option.map_eq_some_iff.mp hattribs'
        cases hnamed
        have hordered := h.ordered attribs (congrArg (Option.map Named.named) hattribs)
        exact (deleteFromAttribs_some hordered attrib s).1
      · rintro - sources heq e he
        obtain ⟨trees, -, rfl⟩ := Option.map_eq_some_iff.mp heq
        exact named_of_mem he

theorem Reachable.sound {cJSONParse : Text → Option Value} {pc : PlayerPC}
    (h : Reachable cJSONParse pc) : Sound pc := by
  induction h with
  | fresh => exact ⟨nofun, fun _ ↦ nofun⟩
  | added _ hrun ih => exact ih.addJSONToTrees hrun
  | deleted _ hrun ih => exact ih.deleteAttribute hrun

/-! ## Reading -/

section Reading

variable {cJSONParse : Text → Option Value} {pc : PlayerPC}
  (combine : Option Value → CString → Tree → Value)

/-- All items have names, and where the attribute is there, the source has it. -/
def PlayerPC.Finds (pc : PlayerPC) (attrib source : CString) : Prop :=
  pc.AllNamed ∧ (pc.attribute attrib ≠ none → pc.stored attrib source ≠ none)

theorem attribute_named {trees : Trees} (h : pc.attribs = some (.named trees)) (attrib : CString) :
    pc.attribute attrib = Dictionary.value rank trees (rank attrib) := by
  unfold PlayerPC.attribute
  rw [h]

/-- `GetAttribute` in the tree of an attribute. -/
theorem getAttribute_named {attribs : Named Tree} (h : pc.attribs = some attribs)
    (attrib source : CString) :
    getAttribute combine (some pc) (some attrib) (some source) =
      within .attribs (attribs.find (some attrib) >>= onSubTree attrib fun subTree ↦ do
        let item ← follow (Dictionary.lookup compareKeys source subTree)
        pure (some item.clone)) := by
  unfold getAttribute getAttributeFrom onAttribute
  simp only [Option.bind_some, h]

/-- `GetAttribute` returns what is stored, if it finds it, and otherwise follows NULL. -/
theorem Sound.getAttribute_eq (h : Sound pc) (attrib source : CString) :
    (pc.Finds attrib source → getAttribute combine (some pc) (some attrib) (some source) ∅ =
        .ok ((pc.stored attrib source).map Value.clone, ∅)) ∧
      (¬ pc.Finds attrib source →
        getAttribute combine (some pc) (some attrib) (some source) ∅ = .error .crash) := by
  cases hattribs : pc.attribs with
  | none =>
      have hattribute : pc.attribute attrib = none := by
        unfold PlayerPC.attribute
        rw [hattribs]
      have hfinds : pc.Finds attrib source :=
        ⟨fun item ↦ by rw [hattribs]; exact nofun, absurd hattribute⟩
      refine ⟨fun _ ↦ ?_, absurd hfinds⟩
      have hnull : (some pc).bind PlayerPC.attribs = none := hattribs
      rw [getAttribute_null (some source) (.inl hnull), PlayerPC.stored, hattribute]
      rfl
  | some attribs =>
      rw [getAttribute_named combine hattribs]
      cases attribs with
      | nameless item =>
          refine ⟨fun hfinds ↦ absurd hattribs (hfinds.1 item), fun _ ↦ ?_⟩
          exact within_of_error (Finset.notMem_empty _) (bind_of_error rfl _)
      | named trees =>
          have hordered := h.ordered trees hattribs
          have hnamed : pc.AllNamed := fun item ↦ by rw [hattribs]; exact nofun
          have hfind : (Named.named trees).find (some attrib) (insert Mutex.attribs ∅) =
              .ok (pc.attribute attrib, insert Mutex.attribs ∅) := by
            rw [attribute_named hattribs, ← hordered.outer.lookup_eq ranks_compareKeys]
            rfl
          unfold PlayerPC.Finds
          cases hattribute : pc.attribute attrib with
          | none =>
              refine ⟨fun _ ↦ ?_, fun hfinds ↦ absurd ⟨hnamed, fun hne ↦ absurd rfl hne⟩ hfinds⟩
              apply within_of_ok (Finset.notMem_empty _)
              rw [bind_of_ok hfind, hattribute, PlayerPC.stored, hattribute]
              rfl
          | some subTree =>
              have hsub := hordered.inner_of_value
                ((attribute_named hattribs _).symm.trans hattribute)
              have hlookup : Dictionary.lookup compareKeys source subTree =
                  pc.stored attrib source := by
                rw [PlayerPC.stored, hattribute, hsub.lookup_eq ranks_compareKeys]
                rfl
              cases hstored : pc.stored attrib source with
              | none =>
                  refine ⟨fun hfinds ↦ absurd rfl (hfinds.2 (Option.some_ne_none _)), fun _ ↦ ?_⟩
                  apply within_of_error (Finset.notMem_empty _)
                  rw [bind_of_ok hfind, hattribute]
                  apply within_of_error (by simp)
                  dsimp only
                  rw [hlookup, hstored]
                  rfl
              | some value =>
                  refine ⟨fun _ ↦ ?_,
                    fun hfinds ↦ absurd ⟨hnamed, fun _ ↦ Option.some_ne_none _⟩ hfinds⟩
                  apply within_of_ok (Finset.notMem_empty _)
                  rw [bind_of_ok hfind, hattribute]
                  apply within_of_ok (by simp)
                  dsimp only
                  rw [hlookup, hstored]
                  rfl

/-- The four readers return what is stored, and NULL, 0 and FALSE where nothing is stored. -/
structure ReadsStored (pc : PlayerPC) (attrib source : CString) : Prop where
  value : getAttribute combine (some pc) (some attrib) (some source) ∅ =
    .ok ((pc.stored attrib source).map Value.clone, ∅)
  int : getAttributeInt combine (some pc) (some attrib) (some source) ∅ =
    .ok (((pc.stored attrib source).map Value.valueint).getD 0, ∅)
  bool : getAttributeBool combine (some pc) (some attrib) (some source) ∅ =
    .ok (decide ((pc.stored attrib source).map Value.type = some .true), ∅)
  string : getAttributeString combine (some pc) (some attrib) (some source) ∅ =
    .ok ((pc.stored attrib source).bind Value.valuestring, ∅)

/-- The readers return what is stored exactly if every item has a name, and the attribute is there
for the source or not at all. -/
theorem getAttribute_stored_iff (hpc : Reachable cJSONParse pc) (attrib source : CString) :
    ReadsStored combine pc attrib source ↔ pc.Finds attrib source := by
  obtain ⟨hfound, hcrash⟩ := hpc.sound.getAttribute_eq combine attrib source
  constructor
  · intro hreads
    by_contra hfinds
    cases hreads.value.symm.trans (hcrash hfinds)
  · intro hfinds
    have hvalue := hfound hfinds
    refine ⟨hvalue, ?_, ?_, ?_⟩
    · unfold getAttributeInt
      rw [bind_of_ok hvalue]
      cases pc.stored attrib source with
      | none => rfl
      | some value => cases value <;> rfl
    · unfold getAttributeBool
      rw [bind_of_ok hvalue]
      cases pc.stored attrib source with
      | none => rfl
      | some value => cases value <;> rfl
    · unfold getAttributeString
      rw [bind_of_ok hvalue]
      cases pc.stored attrib source with
      | none => rfl
      | some value => cases value <;> rfl

end Reading

/-! ## Examples -/

/-- The pc behind `SetAttributeInt(pc, "sex", "race", 1)` on a new pc. -/
theorem reachable_single : Reachable parse (single sexName raceSource (.number 1)) := by
  have hrun : addJSONToTrees parse (memberText sexName (printNumber 1)) raceSource ⟨none, none⟩ ∅ =
      .ok (single sexName raceSource (.number 1), ∅) := rfl
  exact .added .fresh hrun

/-- `sex` is read for the source that has it. -/
theorem getAttribute_stored_race : ReadsStored (fun _ _ _ ↦ .null)
    (single sexName raceSource (.number 1)) sexName raceSource :=
  (getAttribute_stored_iff _ reachable_single sexName raceSource).mpr ⟨nofun, fun _ ↦ nofun⟩

/-- `sex` is read for a source that does not have it. -/
theorem absent_source_crashes : ∃ pc, Reachable parse pc ∧
    pc.stored sexName aggregateSource = none ∧
    ¬ ReadsStored (fun _ _ _ ↦ .null) pc sexName aggregateSource := by
  refine ⟨_, reachable_single, rfl, fun hreads ↦ ?_⟩
  cases hreads.value.symm

end HavokMud.Attributes.Locks
