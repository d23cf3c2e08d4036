import HavokMud.Attributes.Indexes
import HavokMud.Json.RoundTrip

/-!
# Attributes through JSON and back

The way of the attributes from the trees to the combined text and back.  Every text on the way is
read as it was printed, and the trees that are built from the texts hold what the old ones held.
-/

namespace HavokMud.Attributes

open BinaryTree BTree SearchTree Json

/-! ## Texts on the way -/

/-- A name and a scalar that are printed without loss. -/
structure Plain (member : CString × Value) : Prop where
  name : PrintableText member.1
  fits : member.2.Fits
  value : Printable member.2

theorem Plain.kept {member : CString × Value} (h : Plain member) : keptMember member = member := by
  rw [keptMember, keptString_eq_self h.name, h.fits.keptValue_eq_self h.value]

/-- Every source and every attribute of it is printed without loss. -/
structure PlainTrees (sources : Trees) : Prop where
  names : ∀ e ∈ inorder sources, PrintableText e.1
  members : ∀ e ∈ inorder sources, ∀ member ∈ inorder e.2, Plain member

theorem appendAttribToJSON_of_fits {tree : Tree} (h : ∀ member ∈ inorder tree, member.2.Fits) :
    appendAttribToJSON tree = .object (inorder tree) := by
  unfold appendAttribToJSON
  rw [List.map_congr_left (g := fun member ↦ member), List.map_id']
  intro member hmember
  rw [Value.clone_of_scalar (h member hmember).scalar]

theorem stripWhitespace_braces (text : Text) :
    stripWhitespace (123 :: (text ++ [125])) = some (123 :: (text ++ [125])) := by
  have hlast : (123 :: (text ++ [125])).rdropWhile isBlank = 123 :: (text ++ [125]) := by
    rw [← List.cons_append, List.rdropWhile_concat_neg _ _ _ (by decide)]
  unfold stripWhitespace
  rw [List.dropWhile_cons_of_neg (by decide)]
  simp only [hlast]
  rfl

/-- The text of some members, and what it is read as. -/
theorem exists_text {members : List (CString × Value)} (h : ∀ member ∈ members, member.2.Fits)
    (hne : members ≠ []) :
    ∃ text, print (.object members) = some text ∧
      parse text = some (.object (members.map keptMember)) ∧
      ∀ source, membersOf ⟨source, some text⟩ = some (members.map keptMember) := by
  obtain ⟨text, htext⟩ := exists_print_object hne fun member hmember ↦
    fails_of_scalar (h member hmember).scalar
  have hparse : parse (123 :: (text ++ [125])) = some (.object (members.map keptMember)) := by
    apply parse_print (printable_keptMembers h)
    rw [print_keptMembers, htext]
  refine ⟨_, htext, hparse, ?_⟩
  intro source
  rw [membersOf, Option.bind_some, stripWhitespace_braces, Option.bind_some, hparse]
  rfl

/-- A source with its attributes, from left to right. -/
abbrev Source :=
  CString × List (CString × Value)

/-- A source has attributes, all of them scalars. -/
structure Filled (e : Source) : Prop where
  fits : ∀ member ∈ e.2, member.2.Fits
  filled : e.2 ≠ []

def textOf (e : Source) : JSONSource :=
  ⟨e.1, print (.object e.2)⟩

/-- The object that the text of a source is read as. -/
def keptObject (e : Source) : Value :=
  .object (e.2.map keptMember)

theorem Filled.printable {e : Source} (h : Filled e) : Printable (keptObject e) :=
  printable_keptMembers h.fits

theorem Filled.fails {e : Source} (h : Filled e) : fails (keptObject e) = false := by
  have hempty : (e.2.map keptMember).isEmpty = false :=
    List.isEmpty_eq_false_iff.mpr (mt List.map_eq_nil_iff.mp h.filled)
  rw [keptObject, Json.fails, hempty, anyMemberFails_eq_false]
  · rfl
  · intro member hmember
    obtain ⟨old, hold, rfl⟩ := List.mem_map.mp hmember
    exact (fails_keptValue old.2).trans (fails_of_scalar (h.fits old hold).scalar)

/-- The combined text of some sources, which `SplitJSON` takes apart again. -/
theorem split_combine {es : List Source} (h : ∀ e ∈ es, Filled e) (hne : es ≠ []) :
    ∃ text, combineJSON (es.map textOf) = some text ∧
      splitJSON (some text) = some (es.map fun e ↦ textOf (keptString e.1, e.2)) := by
  have hparts : (es.map textOf).filterMap (fun part ↦
      (part.json.bind parse).map fun value ↦ (part.source, value)) =
        es.map fun e ↦ (e.1, keptObject e) := by
    rw [List.filterMap_map, ← List.filterMap_eq_map']
    apply List.filterMap_congr
    intro e he
    obtain ⟨text, htext, hparse, -⟩ := exists_text (h e he).fits (h e he).filled
    simp only [Function.comp_apply, textOf, htext, Option.bind_some, hparse, Option.map_some]
    rfl
  have hprintable : Printable (.object (es.map fun e ↦ (keptString e.1, keptObject e))) := by
    apply Printable.object
    · intro member hmember
      obtain ⟨e, -, rfl⟩ := List.mem_map.mp hmember
      exact printableText_keptText e.1.val
    · intro member hmember
      obtain ⟨e, he, rfl⟩ := List.mem_map.mp hmember
      exact (h e he).printable
  have hfails : ∀ member ∈ es.map fun e ↦ (keptString e.1, keptObject e),
      fails member.2 = false := by
    intro member hmember
    obtain ⟨e, he, rfl⟩ := List.mem_map.mp hmember
    exact (h e he).fails
  have hnames : print (.object (es.map fun e ↦ (keptString e.1, keptObject e))) =
      print (.object (es.map fun e ↦ (e.1, keptObject e))) := by
    have hmap : es.map (fun e ↦ (keptString e.1, keptObject e)) =
        (es.map fun e ↦ (e.1, keptObject e)).map fun member ↦ (keptString member.1, member.2) := by
      rw [List.map_map]
      rfl
    rw [hmap]
    exact print_object_map (fun member _ ↦ printString_keptText member.1.val) (fun _ _ _ ↦ rfl)
      fun _ _ ↦ rfl
  obtain ⟨text, htext⟩ := exists_print_object (mt List.map_eq_nil_iff.mp hne) hfails
  refine ⟨123 :: (text ++ [125]), ?_, ?_⟩
  · unfold combineJSON
    rw [hparts, ← hnames, htext]
  · unfold splitJSON
    rw [Option.bind_some, parse_print hprintable htext, Option.map_some]
    simp only [Attributes.members, List.map_map, Option.some.injEq]
    apply List.map_congr_left
    intro e he
    simp only [Function.comp_apply, textOf, keptObject, print_keptMembers]

section Sources

variable {sources : Trees}

/-- The sources of a tree. -/
def sourcesOf (sources : Trees) : List Source :=
  (inorder sources).map fun e ↦ (e.1, inorder e.2)

/-- `ExtractJSONFromTree` gives the texts of the sources. -/
theorem extract_eq {pc : PlayerPC} (hsome : pc.sources = some sources)
    (hfits : ∀ e ∈ sourcesOf sources, ∀ member ∈ e.2, member.2.Fits) :
    extractJSONFromTree pc = some ((sourcesOf sources).map textOf) := by
  unfold extractJSONFromTree sourcesOf
  rw [hsome, Option.map_some, List.map_map]
  congr 1
  apply List.map_congr_left
  intro e he
  simp only [Function.comp_apply, textOf]
  rw [appendAttribToJSON_of_fits (hfits _ (List.mem_map_of_mem he))]

theorem PlainTrees.filled (h : PlainTrees sources)
    (hfilled : ∀ e ∈ inorder sources, inorder e.2 ≠ []) :
    ∀ e ∈ sourcesOf sources, Filled e := by
  intro e he
  obtain ⟨old, hold, rfl⟩ := List.mem_map.mp he
  exact ⟨fun member hmember ↦ (h.members old hold member hmember).fits, hfilled old hold⟩

theorem map_keptMember {members : List (CString × Value)} (h : ∀ member ∈ members, Plain member) :
    members.map keptMember = members := by
  rw [List.map_congr_left (g := fun member ↦ member), List.map_id']
  intro member hmember
  exact (h member hmember).kept

end Sources

/-! ## Trees from the texts -/

/-- A fold that changes its value at the elements of one key. -/
theorem foldl_at_key {α β ω : Type} [DecidableEq ω] {key : α → ω} {w : ω} {change : α → β → β}
    {xs : List α} (hdistinct : xs.Pairwise fun x y ↦ key x ≠ key y) (b : β) :
    xs.foldl (fun b x ↦ if key x = w then change x b else b) b =
      ((xs.find? fun x ↦ key x = w).map fun x ↦ change x b).getD b := by
  induction xs generalizing b with
  | nil => rfl
  | cons x xs ih =>
      obtain ⟨hx, hxs⟩ := List.pairwise_cons.mp hdistinct
      rw [List.foldl_cons, ih hxs]
      by_cases heq : key x = w
      · have hnone : xs.find? (fun x ↦ key x = w) = none := by
          apply List.find?_eq_none.mpr
          intro y hy
          simpa using fun hyw ↦ hx y hy (heq.trans hyw.symm)
        rw [if_pos heq, hnone, List.find?_cons_of_pos (by simpa using heq)]
        rfl
      · rw [if_neg heq, List.find?_cons_of_neg (by simpa using heq)]

/-- Members of distinct names, stored one after the other. -/
theorem latest_eq_find? {members : List (CString × Value)}
    (hdistinct : members.Pairwise fun first second ↦ rank first.1 ≠ rank second.1)
    (attrib : List ℕ) :
    latest members attrib none =
      (members.find? fun member ↦ rank member.1 = attrib).map fun member ↦ member.2.clone := by
  unfold latest
  rw [foldl_at_key hdistinct]
  cases members.find? fun member ↦ rank member.1 = attrib <;> rfl

/-- The members of a tree, stored one after the other, are what the tree holds. -/
theorem latest_inorder {tree : Tree} (htree : Dictionary.Ordered rank tree)
    (hplain : ∀ member ∈ inorder tree, Plain member) (attrib : List ℕ) :
    latest (inorder tree) attrib none = Dictionary.value rank tree attrib := by
  rw [Dictionary.value_eq_find?, latest_eq_find? (List.Pairwise.imp (fun hlt ↦ hlt.ne) htree)]
  cases hfind : (inorder tree).find? fun member ↦ rank member.1 = attrib with
  | none => rfl
  | some member =>
      rw [Option.map_some, Option.map_some,
        Value.clone_of_scalar (hplain member (List.mem_of_find?_eq_some hfind)).fits.scalar]

/-- What the sources hold after some of them were added. -/
def heldAfter (es : List Source) (source attrib : List ℕ) (old : Option Value) : Option Value :=
  es.foldl (fun old e ↦
    if rank e.1 = source then latest (e.2.map keptMember) attrib old else old) old

theorem addParts_spec {es : List Source} (h : ∀ e ∈ es, Filled e) {pc : PlayerPC}
    (hpc : WellFormed pc) :
    ∃ pc', addParts (es.map textOf) pc = some pc' ∧ WellFormed pc' ∧ ∀ source attrib,
      entry pc'.sourceTrees source attrib =
        heldAfter es source attrib (entry pc.sourceTrees source attrib) := by
  induction es generalizing pc with
  | nil => exact ⟨pc, rfl, hpc, fun _ _ ↦ rfl⟩
  | cons e es ih =>
      have he := h e List.mem_cons_self
      obtain ⟨text, htext, -, hmembers⟩ := exists_text he.fits he.filled
      have hfirst : addJSONToTrees (textOf e) pc = some (pc.added e.1 (e.2.map keptMember)) := by
        apply hpc.addJSONToTrees_eq
        rw [textOf, htext]
        exact hmembers e.1
      obtain ⟨pc', hadd, hpc', hentries⟩ := ih
        (fun e' he' ↦ h e' (List.mem_cons_of_mem e he')) (hpc.added e.1 (e.2.map keptMember))
      refine ⟨pc', ?_, hpc', ?_⟩
      · rw [addParts, List.map_cons, List.foldlM_cons, hfirst]
        exact hadd
      · intro source attrib
        rw [hentries, hpc.entry_added]
        simp only [heldAfter, List.foldl_cons, eq_comm]

/-- Adding all sources of a tree gives what the tree holds. -/
theorem heldAfter_sourcesOf {sources : Trees} (h : Ordered sources) (hplain : PlainTrees sources)
    (source attrib : List ℕ) :
    heldAfter (sourcesOf sources) source attrib none = entry sources source attrib := by
  unfold heldAfter sourcesOf entry
  rw [Dictionary.value_eq_find?, List.foldl_map,
    foldl_at_key (List.Pairwise.imp (fun hlt ↦ hlt.ne) h.outer)]
  cases hfind : (inorder sources).find? fun e ↦ rank e.1 = source with
  | none => rfl
  | some e =>
      have he := List.mem_of_find?_eq_some hfind
      rw [Option.map_some, Option.getD_some, Option.map_some, Option.bind_some,
        map_keptMember (hplain.members e he), latest_inorder (h.inner e he) (hplain.members e he)]

theorem held_eq (trees : Option Trees) (outer inner : List ℕ) :
    held trees outer inner = (entry (trees.getD .nil) outer inner).map fun value ↦
      (value.type, value.valueint, value.valuestring) := by
  cases trees <;> rfl

/-- The round trip of a pc whose attributes are printed without loss. -/
theorem WellFormed.roundTrip {pc : PlayerPC} (h : WellFormed pc) {sources : Trees}
    (hsome : pc.sources = some sources) (hplain : PlainTrees sources) (hne : inorder sources ≠ [])
    (hattribs : ∀ e ∈ inorder sources, inorder e.2 ≠ []) :
    ∃ pc', roundTrip pc = some pc' ∧ WellFormed pc' ∧ ∀ source attrib,
      entry pc'.sourceTrees source attrib = entry pc.sourceTrees source attrib := by
  have hsources : pc.sourceTrees = sources := by
    rw [PlayerPC.sourceTrees, hsome]
    rfl
  have hfilled := hplain.filled hattribs
  have hkept : (sourcesOf sources).map (fun e ↦ textOf (keptString e.1, e.2)) =
      (sourcesOf sources).map textOf := by
    apply List.map_congr_left
    intro e he
    obtain ⟨old, hold, rfl⟩ := List.mem_map.mp he
    rw [keptString_eq_self (hplain.names old hold)]
  obtain ⟨text, hcombine, hsplit⟩ := split_combine hfilled (mt List.map_eq_nil_iff.mp hne)
  obtain ⟨pc', hadd, hpc', hentries⟩ := addParts_spec hfilled wellFormed_fresh
  refine ⟨pc', ?_, hpc', ?_⟩
  · unfold Attributes.roundTrip
    rw [extract_eq hsome fun e he ↦ (hfilled e he).fits, Option.bind_some, hcombine, hsplit, hkept]
    exact hadd
  · intro source attrib
    have hordered := h.sources
    rw [hsources] at hordered
    rw [hentries, hsources]
    exact heldAfter_sourcesOf hordered hplain source attrib

/-! ## Reachable pcs -/

/-- The text is an object of scalars, and it and its source are printed without loss. -/
def Such (js : JSONSource) : Prop :=
  PrintableText js.source ∧ ∃ members, membersOf js = some members ∧
    ∀ member ∈ members, Plain member

/-- What `AddJSONToTrees`, `SetAttributeInt` and `SetAttributeBool` make of a new pc. -/
inductive Reachable : PlayerPC → Prop
  | fresh : Reachable .fresh
  | addJSONToTrees {pc pc' : PlayerPC} {js : JSONSource} : Reachable pc → Such js →
      addJSONToTrees js pc = some pc' → Reachable pc'
  | setAttributeInt {pc pc' : PlayerPC} {attrib source : CString} {val : ℤ} : Reachable pc →
      Such ⟨source, some (memberText attrib (printNumber val))⟩ →
      setAttributeInt pc attrib source val = some pc' → Reachable pc'
  | setAttributeBool {pc pc' : PlayerPC} {attrib source : CString} {val : Bool} : Reachable pc →
      Such ⟨source, some (memberText attrib (boolText val))⟩ →
      setAttributeBool pc attrib source val = some pc' → Reachable pc'

/-- A name without quotes, backslashes and control bytes is read as it was given. -/
theorem read_memberText {attrib : CString} (hattrib : PlainName attrib) {value : Value}
    (hvalue : Printable value) :
    stripWhitespace (memberText attrib (printValue value 0)) =
        some (memberText attrib (printValue value 0)) ∧
      parse (memberText attrib (printValue value 0)) = some (.object [(attrib, value)]) := by
  have htext : memberText attrib (printValue value 0) =
      123 :: 32 :: (printString attrib ++ 58 :: 32 :: (printValue value 0 ++ [32, 125])) := by
    rw [hattrib.printString]
    simp [memberText]
  have hbraces : ∃ text, memberText attrib (printValue value 0) = 123 :: (text ++ [125]) :=
    ⟨32 :: 34 :: (attrib.val ++ [34, 58, 32] ++ printValue value 0 ++ [32]), by simp [memberText]⟩
  constructor
  · obtain ⟨text, hbraces⟩ := hbraces
    rw [hbraces, stripWhitespace_braces]
  · rw [htext]
    exact parse_member hattrib.printableText hvalue

theorem such_memberText {attrib source : CString} (hattrib : PlainName attrib)
    (hsource : PrintableText source) (value : Value) (hfits : value.Fits)
    (hvalue : Printable value) : Such ⟨source, some (memberText attrib (printValue value 0))⟩ := by
  obtain ⟨hstrip, hparse⟩ := read_memberText hattrib hvalue
  refine ⟨hsource, [(attrib, value)], ?_, ?_⟩
  · rw [membersOf, Option.bind_some, hstrip, Option.bind_some, hparse]
    rfl
  · intro member hmember
    rw [List.mem_singleton.mp hmember]
    exact ⟨hattrib.printableText, hfits, hvalue⟩

theorem plain_looped {source : CString} {members : List (CString × Value)}
    (hmembers : ∀ member ∈ members, Plain member) {trees : Trees × Tree}
    (htree : Dictionary.Ordered rank trees.2) (hplain : ∀ member ∈ inorder trees.2, Plain member) :
    ∀ member ∈ inorder (members.foldl (addMember source) trees).2, Plain member := by
  induction members generalizing trees with
  | nil => exact hplain
  | cons first members ih =>
      have hfirst := hmembers first List.mem_cons_self
      apply ih (fun member hmember ↦ hmembers member (List.mem_cons_of_mem first hmember))
        (addMember_snd htree source first).1
      intro member hmember
      rcases htree.mem_put ranks_compareKeys hmember with hold | ⟨hvalue, hkey⟩
      · exact hplain member hold
      · have hclone := Value.clone_of_scalar hfirst.fits.scalar
        rw [hclone] at hvalue
        refine ⟨?_, hvalue ▸ hfirst.fits, hvalue ▸ hfirst.value⟩
        rcases hkey with hkey | ⟨old, hold⟩
        · rw [hkey]
          exact hfirst.name
        · exact (hplain _ hold).name

theorem mem_withSource {source : CString} {sources : Trees} {e : CString × Tree}
    (he : e ∈ inorder (withSource source sources)) : e = (source, .nil) ∨ e ∈ inorder sources := by
  unfold withSource at he
  split_ifs at he
  · exact .inr he
  · exact Dictionary.mem_inorder_add.mp he

theorem WellFormed.plain_added {pc : PlayerPC} (h : WellFormed pc)
    (hplain : PlainTrees pc.sourceTrees)
    {source : CString} (hsource : PrintableText source) {members : List (CString × Value)}
    (hmembers : ∀ member ∈ members, Plain member) :
    PlainTrees (pc.added source members).sourceTrees := by
  have hlooped : ∀ member ∈ inorder (pc.looped source members).2, Plain member := by
    apply plain_looped hmembers (h.sources.inner_getD _)
    intro member hmember
    cases hvalue : Dictionary.value rank pc.sourceTrees (rank source) with
    | none =>
        rw [hvalue] at hmember
        cases hmember
    | some tree =>
        rw [hvalue] at hmember
        obtain ⟨e, he, -, rfl⟩ := h.sources.outer.value_eq_some_iff.mp hvalue
        exact hplain.members e he member hmember
  have hnames : ∀ e ∈ inorder (withSource source pc.sourceTrees), PrintableText e.1 := by
    intro e he
    rcases mem_withSource he with rfl | hold
    · exact hsource
    · exact hplain.names e hold
  have hwith := h.sources.withSource source
  rw [sourceTrees_added]
  constructor
  · intro e he
    rcases hwith.outer.mem_assign ranks_compareKeys he with hold | ⟨-, old, hold⟩
    · exact hnames e hold
    · exact hnames (e.1, old) hold
  · intro e he member hmember
    rcases hwith.outer.mem_assign ranks_compareKeys he with hold | ⟨hvalue, -⟩
    · rcases mem_withSource hold with rfl | hold
      · cases hmember
      · exact hplain.members e hold member hmember
    · rw [hvalue, inorder_balance] at hmember
      exact hlooped member hmember

/-- What every reachable pc keeps. -/
structure ReachableInv (pc : PlayerPC) : Prop where
  wellFormed : WellFormed pc
  plain : PlainTrees pc.sourceTrees
  sources : pc.sources = none ∨ inorder pc.sourceTrees ≠ []

theorem ReachableInv.addJSONToTrees {pc pc' : PlayerPC} (h : ReachableInv pc) {js : JSONSource}
    (hsuch : Such js) (hadd : addJSONToTrees js pc = some pc') : ReachableInv pc' := by
  obtain ⟨hsource, members, hmembers, hplain⟩ := hsuch
  rw [h.wellFormed.addJSONToTrees_eq hmembers] at hadd
  obtain rfl := Option.some.inj hadd
  refine ⟨h.wellFormed.added js.source members, h.wellFormed.plain_added h.plain hsource hplain, ?_⟩
  right
  intro hnil
  have hwith := h.wellFormed.sources.withSource js.source
  have hvalue := hwith.outer.value_assign ranks_compareKeys js.source
    (balance (pc.looped js.source members).2) (rank js.source)
  rw [if_pos rfl, h.wellFormed.sources.value_withSource, if_pos rfl, Option.map_some,
    ← sourceTrees_added, Dictionary.value, hnil] at hvalue
  cases hvalue

theorem Reachable.inv {pc : PlayerPC} (h : Reachable pc) : ReachableInv pc := by
  induction h with
  | fresh =>
      refine ⟨wellFormed_fresh, ?_, .inl rfl⟩
      constructor <;> intro e he <;> cases he
  | addJSONToTrees _ hsuch hadd ih => exact ih.addJSONToTrees hsuch hadd
  | setAttributeInt _ hsuch hadd ih => exact ih.addJSONToTrees hsuch hadd
  | setAttributeBool _ hsuch hadd ih => exact ih.addJSONToTrees hsuch hadd

/-- The two pcs hold the same in both trees. -/
def SameAttributes (pc pc' : PlayerPC) : Prop :=
  (∀ attrib source, held pc'.attribs attrib source = held pc.attribs attrib source) ∧
    ∀ source attrib, held pc'.sources source attrib = held pc.sources source attrib

/-- The attributes of a reachable pc come back as they were exactly if the pc has trees at all. -/
theorem attributes_round_trip_iff {pc : PlayerPC} (h : Reachable pc)
    (hattribs : ∀ e ∈ inorder pc.sourceTrees, inorder e.2 ≠ []) :
    (∃ pc', roundTrip pc = some pc' ∧ SameAttributes pc pc') ↔ pc.sources ≠ none := by
  have hinv := h.inv
  constructor
  · rintro ⟨pc', htrip, -⟩ hnone
    rw [roundTrip, extractJSONFromTree, hnone] at htrip
    cases htrip
  · intro hsome
    obtain ⟨sources, hsources⟩ := Option.ne_none_iff_exists'.mp hsome
    have hne := hinv.sources.resolve_left hsome
    have hplain := hinv.plain
    rw [PlayerPC.sourceTrees, hsources, Option.getD_some] at hne hplain hattribs
    obtain ⟨pc', htrip, hpc', hentries⟩ := hinv.wellFormed.roundTrip hsources hplain hne hattribs
    refine ⟨pc', htrip, ?_, ?_⟩
    · intro attrib source
      rw [held_eq, held_eq]
      change (entry pc'.attribTrees attrib source).map _ =
        (entry pc.attribTrees attrib source).map _
      rw [hpc'.transposed, hinv.wellFormed.transposed, hentries]
    · intro source attrib
      rw [held_eq, held_eq]
      change (entry pc'.sourceTrees source attrib).map _ =
        (entry pc.sourceTrees source attrib).map _
      rw [hentries]

/-- A pc with the attribute `sex` of the source `core-pc`. -/
theorem attributes_round_trip_set :
    ∃ pc pc', setAttributeInt .fresh ⟨[115, 101, 120], by decide⟩
        ⟨[99, 111, 114, 101, 45, 112, 99], by decide⟩ (-1) = some pc ∧
      roundTrip pc = some pc' ∧ SameAttributes pc pc' := by
  let set := setAttributeInt .fresh ⟨[115, 101, 120], by decide⟩
    ⟨[99, 111, 114, 101, 45, 112, 99], by decide⟩ (-1)
  obtain ⟨pc, hpc⟩ := Option.isSome_iff_exists.mp (by decide +kernel : set.isSome = true)
  have hfacts : set.any (fun pc ↦ pc.sources.isSome ∧
      (inorder pc.sourceTrees).all fun e ↦ !(inorder e.2).isEmpty) = true := by
    decide +kernel
  rw [hpc, Option.any_some, decide_eq_true_eq] at hfacts
  have hsuch : Such ⟨⟨[99, 111, 114, 101, 45, 112, 99], by decide⟩,
      some (memberText ⟨[115, 101, 120], by decide⟩ (printNumber (-1)))⟩ :=
    such_memberText (by unfold PlainName; decide +kernel) (printableText_of_le (by decide +kernel))
      (.number (-1))
      ⟨by decide, by decide⟩ (.number (by decide) (by decide))
  obtain ⟨pc', htrip, hsame⟩ := (attributes_round_trip_iff
    (.setAttributeInt .fresh hsuch hpc) (by simpa using hfacts.2)).mpr
    (Option.isSome_iff_ne_none.mp hfacts.1)
  exact ⟨pc, pc', hpc, htrip, hsame⟩

/-- A new pc has no trees, and `CombineJSON` follows a NULL pointer. -/
theorem attributes_round_trip_fresh :
    Reachable .fresh ∧ (∀ e ∈ inorder PlayerPC.fresh.sourceTrees, inorder e.2 ≠ []) ∧
      ¬ ∃ pc', roundTrip .fresh = some pc' ∧ SameAttributes .fresh pc' := by
  refine ⟨.fresh, ?_, ?_⟩
  · intro e he
    cases he
  · rintro ⟨pc', htrip, -⟩
    cases htrip

end HavokMud.Attributes
