import HavokMud.Attributes.Lookup
import HavokMud.Attributes.Transposed
import Mathlib.Data.Nat.Digits.Lemmas

/-!
# Integers and booleans

`SetAttributeInt` and `SetAttributeBool` print a JSON text into a buffer and hand it to
`AddAttribute`.  What they set is read back, but an attribute that was not there before can no
longer be looked up for other sources.
-/

namespace HavokMud.Attributes.Locks

open BinaryTree BTree SearchTree Json Interaction Locking

/-! ## Setting -/

section Setting

variable {held : Finset Mutex} {cJSONParse : Text → Option Value} {pc : PlayerPC}
  {attrib source : CString} {value : Value} {attribs : Trees} {tree : Tree}

/-- A turn of the loop of `AddJSONToTrees` on trees with names. -/
theorem addChild_named (hfree : ∀ name, Mutex.attrib name ∉ held) (source name : CString)
    (value : Value) (attribs : Trees) (tree : Tree) :
    addChild source (.named attribs, .named tree) (some name, value) held =
      .ok ((.named (addMember source (attribs, tree) (name, value)).1,
        .named (addMember source (attribs, tree) (name, value)).2), held) := by
  have htakes {β : Type} (tree : BinaryTree (CString × β)) :
      (Named.named tree).Takes [some name] := by simp [Named.Takes]
  obtain ⟨subTree, hrun⟩ : ∃ subTree, addChild source (.named attribs, .named tree)
      (some name, value) held = .ok (((Named.named attribs).put (some name) subTree,
        (Named.named tree).put (some name) value.clone), held) :=
    exists_addChild hfree source (htakes attribs) (htakes tree)
  obtain ⟨found, held₁, hfound, heq⟩ := addChild_eq_ok hrun
  cases hfound
  rw [hrun, heq]
  rfl

theorem stored_eq (h : pc.attribs.getD (.named .nil) = .named attribs) (attrib source : CString) :
    pc.stored attrib source = entry attribs (rank attrib) (rank source) ∧
      pc.attribute attrib = Dictionary.value rank attribs (rank attrib) := by
  unfold PlayerPC.stored PlayerPC.attribute
  cases hattribs : pc.attribs with
  | none =>
      rw [hattribs] at h
      cases h
      exact ⟨rfl, rfl⟩
  | some trees =>
      rw [hattribs, Option.getD_some] at h
      subst h
      exact ⟨rfl, rfl⟩

/-- What a pc holds behind a call that sets an attribute. -/
structure IsSet (pc : PlayerPC) (attrib source : CString) (value : Value) (pc' : PlayerPC) :
    Prop where
  sound : Sound pc'
  named : pc'.AllNamed
  stored : ∀ attrib' source', pc'.stored attrib' source' =
    if rank attrib' = rank attrib ∧ rank source' = rank source then some value.clone
    else pc.stored attrib' source'
  known : ∀ attrib', pc'.attribute attrib' = none ↔
    rank attrib' ≠ rank attrib ∧ pc.attribute attrib' = none

/-- The loop of `AddJSONToTrees` on trees with names. -/
theorem addChild_loop_named (hfree : ∀ name, Mutex.attrib name ∉ held) (source : CString)
    (members : List (CString × Value)) (attribs : Trees) (tree : Tree) :
    (children (.object members)).foldlM (addChild source) (.named attribs, .named tree) held =
      .ok ((.named (members.foldl (addMember source) (attribs, tree)).1,
        .named (members.foldl (addMember source) (attribs, tree)).2), held) := by
  change (members.map fun member ↦ (some member.1, member.2)).foldlM (addChild source)
    (.named attribs, .named tree) held = _
  induction members generalizing attribs tree with
  | nil => rfl
  | cons member members ih =>
      rw [List.map_cons, List.foldlM_cons, bind_of_ok (addChild_named hfree source _ _ _ _),
        List.foldl_cons]
      exact ih _ _

theorem takes_members {β : Type} (members : List (CString × Value))
    (tree : BinaryTree (CString × β)) :
    (Named.named tree).Takes ((children (.object members)).map Prod.fst) := by
  refine .inl fun name hname ↦ ?_
  obtain ⟨child, hchild, rfl⟩ := List.mem_map.mp hname
  obtain ⟨member, -, rfl⟩ := List.mem_map.mp hchild
  exact Option.some_ne_none _

/-- Where every item has a name, the members of a text go to their attributes. -/
theorem Sound.addJSONToTrees_members (h : Sound pc) (hnamed : pc.AllNamed) {json : Text}
    (hstrip : stripWhitespace json = some json) {members : List (CString × Value)}
    (hparse : cJSONParse json = some (.object members)) (source : CString) :
    ∃ pc', Locks.addJSONToTrees cJSONParse json source pc ∅ = .ok (pc', ∅) ∧ Sound pc' ∧
      pc'.AllNamed ∧
      (∀ attrib' source', pc'.stored attrib' source' =
        if rank source' = rank source then latest members (rank attrib') (pc.stored attrib' source')
        else pc.stored attrib' source') ∧
      ∀ member, members = [member] → ∀ attrib', pc'.attribute attrib' = none ↔
        rank attrib' ≠ rank member.1 ∧ pc.attribute attrib' = none := by
  obtain ⟨attribs, hattribs⟩ : ∃ attribs, pc.attribs.getD (.named .nil) = .named attribs := by
    cases hcase : pc.attribs with
    | none => exact ⟨.nil, rfl⟩
    | some trees =>
        cases trees with
        | named attribs => exact ⟨attribs, rfl⟩
        | nameless item => exact absurd hcase (hnamed item)
  obtain ⟨hordered, ⟨tree, htree⟩, -⟩ := h.kept source attribs hattribs
  dsimp only at htree
  have hloop : ∀ held : Finset Mutex, (∀ name, Mutex.attrib name ∉ held) →
      (children (.object members)).foldlM (addChild source)
        (pc.attribs.getD (.named .nil),
          (Dictionary.lookup compareKeys source (pc.sources.getD .nil)).getD (.named .nil)) held =
        .ok ((.named (members.foldl (addMember source) (attribs, tree)).1,
          .named (members.foldl (addMember source) (attribs, tree)).2), held) := by
    intro held hfree
    rw [hattribs, htree]
    exact addChild_loop_named hfree source members attribs tree
  obtain ⟨pc', hrun⟩ : Balanced (Locks.addJSONToTrees cJSONParse json source pc) ∅ := by
    refine balanced_addJSONToTrees_iff.mpr fun text htext ↦ ?_
    obtain rfl := Option.some.inj (hstrip.symm.trans htext)
    refine ⟨_, hparse, ?_, ?_⟩
    · rw [hattribs]
      exact takes_members members attribs
    · rw [htree]
      exact takes_members members tree
  have hattribs' : pc'.attribs =
      some (.named (balance (members.foldl (addMember source) (attribs, tree)).1)) := by
    have hadded := hrun
    unfold Locks.addJSONToTrees at hadded
    simp only [hstrip, hparse] at hadded
    obtain ⟨-, held₁, hadded⟩ := within_eq_ok hadded
    obtain ⟨-, held₂, hadded⟩ := within_eq_ok hadded
    obtain ⟨-, held₃, hadded⟩ := within_eq_ok hadded
    obtain ⟨value', held₄, hfollow, hadded⟩ := bind_eq_ok.mp hadded
    cases hfollow
    rw [bind_of_ok (hloop _ (by simp))] at hadded
    cases hadded
    rfl
  have hnamed' : pc'.attribs.getD (.named .nil) = .named _ := congrArg (Option.getD · _) hattribs'
  refine ⟨pc', hrun, h.addJSONToTrees hrun, ?_, ?_, ?_⟩
  · intro item hitem
    rw [hattribs'] at hitem
    cases hitem
  · intro attrib' source'
    rw [(stored_eq hnamed' _ _).1, entry_balance,
      (addMembers_fst (attribs, tree) hordered source members).2, (stored_eq hattribs _ _).1]
  · rintro member rfl attrib'
    rw [(stored_eq hnamed' _ source).2, Dictionary.value_balance, List.foldl_cons, List.foldl_nil,
      addMember, hordered.outer.value_put ranks_compareKeys, (stored_eq hattribs _ source).2]
    by_cases hattrib : rank attrib' = rank member.1
    · simp [hattrib]
    · simp [hattrib]

theorem Sound.addJSONToTrees_named (h : Sound pc) (hnamed : pc.AllNamed) {json : Text}
    (hstrip : stripWhitespace json = some json)
    (hparse : cJSONParse json = some (.object [(attrib, value)])) (source : CString) :
    ∃ pc', Locks.addJSONToTrees cJSONParse json source pc ∅ = .ok (pc', ∅) ∧
      IsSet pc attrib source value pc' := by
  obtain ⟨pc', hrun, hsound, hnamed', hstored, hknown⟩ :=
    h.addJSONToTrees_members hnamed hstrip hparse source
  refine ⟨pc', hrun, hsound, hnamed', ?_, hknown _ rfl⟩
  intro attrib' source'
  rw [hstored]
  by_cases hsource : rank source' = rank source
  · rw [if_pos hsource]
    simp [latest, hsource, eq_comm]
  · rw [if_neg hsource, if_neg fun hboth ↦ hsource hboth.2]

/-- A search for a name meets an item without one. -/
theorem addJSONToTrees_nameless (hnamed : ¬ pc.AllNamed) {json : Text}
    (hstrip : stripWhitespace json = some json)
    (hparse : cJSONParse json = some (.object [(attrib, value)])) (source : CString) :
    Locks.addJSONToTrees cJSONParse json source pc ∅ = .error .crash := by
  unfold PlayerPC.AllNamed at hnamed
  push Not at hnamed
  obtain ⟨item, hitem⟩ := hnamed
  unfold Locks.addJSONToTrees
  simp only [hstrip]
  apply within_of_error (Finset.notMem_empty _)
  apply within_of_error (by simp)
  apply within_of_error (by simp)
  unfold addChildren
  rw [hparse, hitem]
  rfl

theorem setAttribute_of_added {json value : Text} (hjson : json = memberText attrib value)
    {pc' : PlayerPC} (hrun : Locks.addJSONToTrees cJSONParse json source pc ∅ = .ok (pc', ∅)) :
    setAttribute cJSONParse (some pc) (some attrib) (some source) value ∅ =
      .ok (some pc', ∅) := by
  subst hjson
  change (some <$> Locks.addJSONToTrees cJSONParse (memberText attrib value) source pc) ∅ = _
  rw [map_eq_pure_bind, bind_of_ok hrun]
  rfl

end Setting

/-! ## Reading back -/

section ReadingBack

variable {cJSONParse : Text → Option Value} {combine : Option Value → CString → Tree → Value}
  {pc pc' : PlayerPC} {attrib source : CString} {value : Value}

/-- Every other pair reads as before. -/
def OthersAsBefore (combine : Option Value → CString → Tree → Value) (pc : PlayerPC)
    (attrib source : CString) (pc' : PlayerPC) : Prop :=
  ∀ attrib' source', ¬ (rank attrib' = rank attrib ∧ rank source' = rank source) →
    getAttribute combine (some pc') (some attrib') (some source') ∅ =
      getAttribute combine (some pc) (some attrib') (some source') ∅

theorem IsSet.getAttribute (h : IsSet pc attrib source value pc') :
    Locks.getAttribute combine (some pc') (some attrib) (some source) ∅ =
      .ok (some value.clone, ∅) := by
  have hstored : pc'.stored attrib source = some value.clone := by
    rw [h.stored, if_pos ⟨rfl, rfl⟩]
  rw [(h.sound.getAttribute_eq combine attrib source).1 ⟨h.named, fun _ ↦ by simp [hstored]⟩,
    hstored]
  cases value <;> rfl

theorem attribute_congr (pc : PlayerPC) {attrib' : CString} (h : rank attrib' = rank attrib) :
    pc.attribute attrib' = pc.attribute attrib := by
  unfold PlayerPC.attribute
  rw [h]

/-- There is always another source. -/
theorem exists_other (source : CString) : ∃ other : CString, rank other ≠ rank source := by
  by_cases hempty : source.val = []
  · refine ⟨raceSource, ?_⟩
    rw [rank, rank, hempty]
    decide
  · refine ⟨⟨[], List.not_mem_nil⟩, fun heq ↦ hempty ?_⟩
    exact List.map_eq_nil_iff.mp heq.symm

/-- The others read as before exactly if the attribute was there before. -/
theorem IsSet.others_iff (h : IsSet pc attrib source value pc') (hpc : Sound pc)
    (hnamed : pc.AllNamed) :
    OthersAsBefore combine pc attrib source pc' ↔ pc.attribute attrib ≠ none := by
  constructor
  · intro hothers hnone
    obtain ⟨other, hother⟩ := exists_other source
    have hstored : pc.stored attrib other = none := by
      rw [PlayerPC.stored, hnone]
      rfl
    have hbefore := (hpc.getAttribute_eq combine attrib other).1 ⟨hnamed, absurd hnone⟩
    have hafter := (h.sound.getAttribute_eq combine attrib other).2 fun hfinds ↦ by
      apply hfinds.2 fun hnone' ↦ ((h.known attrib).mp hnone').1 rfl
      rw [h.stored, if_neg fun hboth ↦ hother hboth.2, hstored]
    have hsame := hothers attrib other fun hboth ↦ hother hboth.2
    rw [hbefore, hafter] at hsame
    cases hsame
  · intro hknown attrib' source' hother
    have hstored : pc'.stored attrib' source' = pc.stored attrib' source' := by
      rw [h.stored, if_neg hother]
    have hnone : pc'.attribute attrib' = none ↔ pc.attribute attrib' = none := by
      rw [h.known, and_iff_right_of_imp]
      intro hnone heq
      exact hknown ((attribute_congr pc heq).symm.trans hnone)
    have hfinds : pc'.Finds attrib' source' ↔ pc.Finds attrib' source' := by
      unfold PlayerPC.Finds
      rw [hstored]
      exact and_congr (iff_of_true h.named hnamed) (imp_congr_left (not_congr hnone))
    by_cases hfound : pc.Finds attrib' source'
    · rw [(hpc.getAttribute_eq combine attrib' source').1 hfound,
        (h.sound.getAttribute_eq combine attrib' source').1 (hfinds.mpr hfound), hstored]
    · rw [(hpc.getAttribute_eq combine attrib' source').2 hfound,
        (h.sound.getAttribute_eq combine attrib' source').2 (mt hfinds.mp hfound)]

end ReadingBack

/-! ## The buffers -/

/-- The bytes of `string` in `SetAttributeInt`. -/
def intBuffer (attrib : CString) : ℕ :=
  attrib.val.length + 21 + 9

/-- The bytes of `string` in `SetAttributeBool`. -/
def boolBuffer (attrib : CString) : ℕ :=
  attrib.val.length + 5 + 9

theorem length_memberText (attrib : CString) (value : Text) :
    (memberText attrib value).length = attrib.val.length + value.length + 8 := by
  simp only [memberText, List.length_append, List.length_cons, List.length_nil]
  omega

/-- An `int` has at most ten digits. -/
theorem length_printNumber {val : ℤ} (hlow : -2 ^ 31 ≤ val) (hhigh : val < 2 ^ 31) :
    (printNumber val).length ≤ 11 := by
  have hdigits : (Nat.digits 10 val.natAbs).length ≤ 10 :=
    (Nat.digits_length_le_iff (by decide) _).mpr (by omega)
  unfold printNumber
  rw [List.length_append]
  split_ifs
  all_goals simp only [List.length_reverse, List.length_map, List.length_singleton, List.length_nil]
  all_goals omega

theorem int_fits (attrib : CString) {val : ℤ} (hlow : -2 ^ 31 ≤ val) (hhigh : val < 2 ^ 31) :
    (memberText attrib (printNumber val)).length + 1 ≤ intBuffer attrib := by
  have hlength := length_printNumber hlow hhigh
  rw [length_memberText, intBuffer]
  omega

theorem bool_fits (attrib : CString) (val : Bool) :
    (memberText attrib (boolText val)).length + 1 ≤ boolBuffer attrib := by
  have hlength : (boolText val).length ≤ 5 := by cases val <;> decide
  rw [length_memberText, boolBuffer]
  omega

/-! ## The round trips -/

section RoundTrips

variable {cJSONParse : Text → Option Value} {combine : Option Value → CString → Tree → Value}
  {pc : PlayerPC} {attrib : CString}

/-- `SetAttributeInt` fits its text into the buffer, `GetAttributeInt` reads the integer back, and
every other pair reads as before. -/
def IntRoundTrip (cJSONParse : Text → Option Value)
    (combine : Option Value → CString → Tree → Value) (pc : PlayerPC) (attrib source : CString)
    (val : ℤ) : Prop :=
  (memberText attrib (printNumber val)).length + 1 ≤ intBuffer attrib ∧
    ∃ pc', setAttributeInt cJSONParse (some pc) (some attrib) (some source) val ∅ =
        .ok (some pc', ∅) ∧
      getAttributeInt combine (some pc') (some attrib) (some source) ∅ = .ok (val, ∅) ∧
      OthersAsBefore combine pc attrib source pc'

/-- The same for `SetAttributeBool` and `GetAttributeBool`. -/
def BoolRoundTrip (cJSONParse : Text → Option Value)
    (combine : Option Value → CString → Tree → Value) (pc : PlayerPC) (attrib source : CString)
    (val : Bool) : Prop :=
  (memberText attrib (boolText val)).length + 1 ≤ boolBuffer attrib ∧
    ∃ pc', setAttributeBool cJSONParse (some pc) (some attrib) (some source) val ∅ =
        .ok (some pc', ∅) ∧
      getAttributeBool combine (some pc') (some attrib) (some source) ∅ = .ok (val, ∅) ∧
      OthersAsBefore combine pc attrib source pc'

/-- The value of a boolean. -/
def boolValue (val : Bool) : Value :=
  if val then .true else .false

theorem printValue_boolValue (val : Bool) : printValue (boolValue val) 0 = boolText val := by
  cases val <;> simp [boolValue, printValue, boolText]

/-- What the setters share. -/
theorem Sound.setAttribute_iff (h : Sound pc)
    (hparser : ∀ text value, parse text = some value → cJSONParse text = some value)
    (hattrib : PlainName attrib) {value : Value} (hvalue : Printable value) {text : Text}
    (htext : printValue value 0 = text) (source : CString) {Q : PlayerPC → Prop}
    (hread : ∀ pc', IsSet pc attrib source value pc' → Q pc') :
    (∃ pc', setAttribute cJSONParse (some pc) (some attrib) (some source) text ∅ =
        .ok (some pc', ∅) ∧ Q pc' ∧ OthersAsBefore combine pc attrib source pc') ↔
      pc.AllNamed ∧ pc.attribute attrib ≠ none := by
  subst htext
  obtain ⟨hstrip, hparse⟩ := read_memberText hattrib hvalue
  have hparse' := hparser _ _ hparse
  by_cases hnamed : pc.AllNamed
  · obtain ⟨pc', hrun, hset⟩ := h.addJSONToTrees_named hnamed hstrip hparse' source
    have hothers_iff : OthersAsBefore combine pc attrib source pc' ↔ pc.attribute attrib ≠ none :=
      hset.others_iff h hnamed
    have hset' := setAttribute_of_added rfl hrun
    rw [and_iff_right hnamed, ← hothers_iff]
    constructor
    · rintro ⟨pc₁, hrun₁, -, hothers⟩
      cases hset'.symm.trans hrun₁
      exact hothers
    · exact fun hothers ↦ ⟨pc', hset', hread pc' hset, hothers⟩
  · refine iff_of_false ?_ fun hboth ↦ hnamed hboth.1
    rintro ⟨pc', hrun, -⟩
    change (some <$> Locks.addJSONToTrees cJSONParse _ source pc) ∅ = _ at hrun
    rw [map_eq_pure_bind, bind_of_error (addJSONToTrees_nameless hnamed hstrip hparse' source)]
      at hrun
    cases hrun

/-- Integers and booleans go through the two trees and back, and every other pair reads as before,
exactly if every item has a name and the attribute was there before. -/
theorem typed_round_trip_iff (hpc : Reachable cJSONParse pc)
    (hparser : ∀ text value, parse text = some value → cJSONParse text = some value)
    (hattrib : PlainName attrib) (source : CString) {val : ℤ} (hlow : -2 ^ 31 ≤ val)
    (hhigh : val < 2 ^ 31) (b : Bool) :
    (IntRoundTrip cJSONParse combine pc attrib source val ↔
        pc.AllNamed ∧ pc.attribute attrib ≠ none) ∧
      (BoolRoundTrip cJSONParse combine pc attrib source b ↔
        pc.AllNamed ∧ pc.attribute attrib ≠ none) := by
  constructor
  · refine (and_iff_right (int_fits attrib hlow hhigh)).trans ?_
    refine hpc.sound.setAttribute_iff hparser hattrib (Printable.number hlow hhigh)
      (by rw [printValue]) source fun pc' hset ↦ ?_
    unfold getAttributeInt
    rw [bind_of_ok hset.getAttribute]
    rfl
  · have hprintable : Printable (boolValue b) := by
      cases b
      · exact .false
      · exact .true
    refine (and_iff_right (bool_fits attrib b)).trans ?_
    refine hpc.sound.setAttribute_iff hparser hattrib hprintable (printValue_boolValue b) source
      fun pc' hset ↦ ?_
    unfold getAttributeBool
    rw [bind_of_ok hset.getAttribute]
    cases b <;> rfl

end RoundTrips

/-- `sex` is set again for the source that has it. -/
theorem typed_round_trip_again :
    IntRoundTrip parse (fun _ _ _ ↦ .null) (single sexName raceSource (.number 1)) sexName
      raceSource (-2 ^ 31) :=
  (typed_round_trip_iff reachable_single (fun _ _ h ↦ h) (by unfold PlainName; decide +kernel)
    raceSource le_rfl (by decide) true).1.mpr ⟨nofun, nofun⟩

/-- On a new pc the other sources of `sex` can no longer be read. -/
theorem set_spoils_other_source : ∃ pc, Reachable parse pc ∧
    ¬ IntRoundTrip parse (fun _ _ _ ↦ .null) pc sexName raceSource 1 := by
  refine ⟨_, .fresh, ?_⟩
  rintro ⟨-, pc', hrun, -, hothers⟩
  have hset : setAttributeInt parse (some ⟨none, none⟩) (some sexName) (some raceSource) 1 ∅ =
      .ok (some (single sexName raceSource (.number 1)), ∅) := rfl
  cases hset.symm.trans hrun
  have hcrash : Except.error Stop.crash = Except.ok (none, ∅) :=
    hothers sexName aggregateSource (by decide)
  cases hcrash

end HavokMud.Attributes.Locks
