import HavokMud.Attributes.Typed
import HavokMud.Json.Members

/-!
# Strings

`SetAttributeString` puts a string between two quotes as it is, and `memstrlink` returns one
spelling for all strings that differ in case only.  So a string comes back exactly if JSON escapes
none of its bytes and it is the spelling that is linked.
-/

namespace HavokMud.Attributes.Locks

open BinaryTree BTree SearchTree Json Interaction Locking

/-! ## The string table -/

/-- The string table as a call finds it: `memstrlink` returns the string that is on the table, or
the string itself. -/
structure Strings where
  memstrlink : CString → CString
  rank_memstrlink : ∀ s, rank (memstrlink s) = rank s
  memstrlink_congr : ∀ {s t}, rank s = rank t → memstrlink s = memstrlink t

namespace Strings

variable (strings : Strings)

theorem memstrlink_memstrlink (s : CString) :
    strings.memstrlink (strings.memstrlink s) = strings.memstrlink s :=
  strings.memstrlink_congr (strings.rank_memstrlink s)

theorem length_memstrlink (s : CString) : (strings.memstrlink s).val.length = s.val.length := by
  have hlength := congrArg List.length (strings.rank_memstrlink s)
  simpa [rank, fold] using hlength

/-- The string of a clone. -/
def linked : Value → Value
  | .string text => .string (strings.memstrlink text)
  | value => value

/-- A member as `AddJSONToTrees` clones it, and its name as it links it. -/
def linkedMember (member : CString × Value) : CString × Value :=
  (strings.memstrlink member.1, strings.linked member.2)

/-- The children of a value, as they are cloned. -/
def linkedChildren : Value → Value
  | .object members => .object (members.map strings.linkedMember)
  | .array items => .array (items.map strings.linked)
  | value => value

/-- `cJSON_Parse`, with the children as they are cloned. -/
def linkedParse (cJSONParse : Text → Option Value) (text : Text) : Option Value :=
  (cJSONParse text).map strings.linkedChildren

/-- `AddAttribute`. -/
def addAttribute (cJSONParse : Text → Option Value) (json source : Option CString)
    (pc : Option PlayerPC) : Locking Mutex (Option PlayerPC) :=
  Locks.addAttribute (strings.linkedParse cJSONParse)
    (json.map fun json ↦ (strings.memstrlink json).val) (source.map strings.memstrlink) pc

/-- `SetAttributeString`. -/
def setAttributeString (cJSONParse : Text → Option Value) (pc : Option PlayerPC)
    (attrib source val : Option CString) : Locking Mutex (Option PlayerPC) :=
  match attrib, source with
  | some attrib, some source =>
      strings.addAttribute cJSONParse (some (.ofBytes (memberText attrib (stringText val))))
        (some source) pc
  | _, _ => pure pc

/-- `GetAttributeString`, whose item is a clone too. -/
def getAttributeString (combine : Option Value → CString → Tree → Value) (pc : Option PlayerPC)
    (attrib source : Option CString) : Locking Mutex (Option CString) := do
  let jsonItem ← getAttribute combine pc attrib source
  pure (((jsonItem.map strings.linked).bind Value.valuestring).map strings.memstrlink)

end Strings

/-- The pcs that `AddAttribute`, which the `SetAttribute*` functions call, and `DeleteAttribute`
lead to, whatever is on the string table at each call. -/
inductive Linked (cJSONParse : Text → Option Value) : PlayerPC → Prop
  | fresh : Linked cJSONParse ⟨none, none⟩
  | added {pc pc' : PlayerPC} {json source : Option CString} (strings : Strings) :
      Linked cJSONParse pc →
        strings.addAttribute cJSONParse json source (some pc) ∅ = .ok (some pc', ∅) →
          Linked cJSONParse pc'
  | deleted {pc pc' : Attributes.PlayerPC} {attrib : CString} {source : Option CString} :
      Linked cJSONParse pc.named → Attributes.deleteAttribute attrib source pc = some pc' →
        Linked cJSONParse pc'.named

theorem Linked.sound {cJSONParse : Text → Option Value} {pc : PlayerPC}
    (h : Linked cJSONParse pc) : Sound pc := by
  induction h with
  | fresh => exact ⟨nofun, fun _ ↦ nofun⟩
  | @added pc pc' json source strings _ hrun ih =>
      match json, source with
      | none, _ | some _, none =>
          cases hrun
          exact ih
      | some json, some source =>
          change (some <$> addJSONToTrees (strings.linkedParse cJSONParse)
            (strings.memstrlink json).val (strings.memstrlink source) pc) ∅ = _ at hrun
          rw [map_eq_pure_bind] at hrun
          obtain ⟨pc₁, held, hadded, hsome⟩ := bind_eq_ok.mp hrun
          cases hsome
          exact ih.addJSONToTrees hadded
  | deleted _ hrun ih => exact ih.deleteAttribute hrun

/-! ## The text -/

section Texts

variable {attrib : CString}

theorem caseless_of_mem {text : Text} (h : text.all fun c ↦ decide (Caseless c)) :
    ∀ c ∈ text, Caseless c := by
  simpa using h

/-- A text that differs from that of a member in case only is that of a member. -/
theorem memberText_of_fold {text value : Text} (hnul : 0 ∉ text)
    (h : fold text = fold (memberText attrib value)) :
    ∃ (attrib' : CString) (value' : Text), text = memberText attrib' value' ∧
      rank attrib' = rank attrib ∧ fold value' = fold value := by
  unfold memberText at h
  obtain ⟨text₁, ending, rfl, h₁, hending⟩ := exists_append_of_fold h
  obtain ⟨text₂, value', rfl, h₂, hvalue⟩ := exists_append_of_fold h₁
  obtain ⟨text₃, colon, rfl, h₃, hcolon⟩ := exists_append_of_fold h₂
  obtain ⟨opening, name, rfl, hopening, hname⟩ := exists_append_of_fold h₃
  obtain rfl := eq_of_fold (caseless_of_mem (by decide)) hopening
  obtain rfl := eq_of_fold (caseless_of_mem (by decide)) hcolon
  obtain rfl := eq_of_fold (caseless_of_mem (by decide)) hending
  refine ⟨⟨name, fun hmem ↦ hnul ?_⟩, value', rfl, hname, hvalue⟩
  simp [hmem]

theorem stripWhitespace_memberText (attrib : CString) (value : Text) :
    stripWhitespace (memberText attrib value) = some (memberText attrib value) := by
  have hbraces : memberText attrib value =
      123 :: ((32 :: 34 :: (attrib.val ++ [34, 58, 32] ++ value ++ [32])) ++ [125]) := by
    simp [memberText]
  rw [hbraces, stripWhitespace_braces]

theorem plainName_of_fold {text other : Text} (h : fold text = fold other)
    (hother : PlainName other) : PlainName text := by
  have hall : ∀ n : Fin 256, (31 < toLower (.ofNat n) ∧ toLower (.ofNat n) ≠ 34 ∧
      toLower (.ofNat n) ≠ 92) ↔ (31 < UInt8.ofNat n ∧ UInt8.ofNat n ≠ 34 ∧
        UInt8.ofNat n ≠ 92) := by
    decide +kernel
  have hlower : ∀ c : UInt8, (31 < toLower c ∧ toLower c ≠ 34 ∧ toLower c ≠ 92) ↔
      (31 < c ∧ c ≠ 34 ∧ c ≠ 92) := fun c ↦ by
    simpa using hall ⟨c.toNat, c.toNat_lt⟩
  intro c hc
  have hmem : (toLower c).toNat ∈ fold other := by
    rw [← h]
    exact List.mem_map_of_mem hc
  obtain ⟨d, hd, heq⟩ := List.mem_map.mp hmem
  rw [← hlower, ← UInt8.toNat_inj.mp heq, hlower]
  exact hother d hd

end Texts

/-! ## Setting -/

section Setting

variable {strings : Strings} {cJSONParse : Text → Option Value} {pc pc' : PlayerPC}
  {attrib source : CString}

/-- What `AddAttribute` gets of the text of a member. -/
theorem Strings.linked_memberText (strings : Strings) (attrib : CString) {value : Text}
    (hnul : 0 ∉ value) :
    ∃ (attrib' : CString) (value' : Text),
      (strings.memstrlink (.ofBytes (memberText attrib value))).val = memberText attrib' value' ∧
        rank attrib' = rank attrib ∧ fold value' = fold value := by
  have htext : 0 ∉ memberText attrib value := by
    simp [memberText, attrib.property, hnul]
  have hbytes : (CString.ofBytes (memberText attrib value)).val = memberText attrib value :=
    congrArg Subtype.val (CString.ofBytes_val ⟨memberText attrib value, htext⟩)
  apply memberText_of_fold (strings.memstrlink _).property
  refine Eq.trans (strings.rank_memstrlink _) ?_
  rw [rank, hbytes]

theorem Strings.setAttributeString_eq (strings : Strings) (cJSONParse : Text → Option Value)
    (pc : PlayerPC) (attrib source : CString) (val : Option CString) {text : Text}
    (htext : (strings.memstrlink (.ofBytes (memberText attrib (stringText val)))).val = text) :
    strings.setAttributeString cJSONParse (some pc) (some attrib) (some source) val ∅ =
      (some <$> Locks.addJSONToTrees (strings.linkedParse cJSONParse) text
        (strings.memstrlink source) pc) ∅ := by
  subst htext
  rfl

/-- What is stored where the text is read as some members. -/
theorem Sound.setAttributeString_members (h : Sound pc) (hnamed : pc.AllNamed)
    {val : Option CString} {attrib' : CString} {value : Text}
    (htext : (strings.memstrlink (.ofBytes (memberText attrib (stringText val)))).val =
      memberText attrib' value)
    {members : List (CString × Value)}
    (hparse : cJSONParse (memberText attrib' value) = some (.object members)) (source : CString) :
    ∃ pc', strings.setAttributeString cJSONParse (some pc) (some attrib) (some source) val ∅ =
        .ok (some pc', ∅) ∧ Sound pc' ∧ pc'.AllNamed ∧
      pc'.stored attrib source =
        latest (members.map strings.linkedMember) (rank attrib) (pc.stored attrib source) := by
  have hlinked : strings.linkedParse cJSONParse (memberText attrib' value) =
      some (.object (members.map strings.linkedMember)) := by
    rw [Strings.linkedParse, hparse]
    rfl
  obtain ⟨pc', hrun, hsound, hnamed', hstored, -⟩ := h.addJSONToTrees_members hnamed
    (stripWhitespace_memberText attrib' value) hlinked (strings.memstrlink source)
  refine ⟨pc', ?_, hsound, hnamed', ?_⟩
  · rw [strings.setAttributeString_eq cJSONParse pc attrib source val htext, map_eq_pure_bind,
      bind_of_ok hrun]
    rfl
  · rw [hstored, if_pos (strings.rank_memstrlink source).symm]

theorem memberText_eq (attrib : CString) (value : Text) :
    memberText attrib value =
      123 :: (32 :: 34 :: (attrib.val ++ 34 :: 58 :: 32 :: (value ++ [32, 125]))) := by
  simp [memberText]

/-- The call returns only where the text is read, and where no item is without a name if it has
members. -/
theorem read_of_setAttributeString (hreader : Reader cJSONParse) {val : Option CString}
    {attrib' : CString} {value : Text}
    (htext : (strings.memstrlink (.ofBytes (memberText attrib (stringText val)))).val =
      memberText attrib' value)
    (hrun : strings.setAttributeString cJSONParse (some pc) (some attrib) (some source) val ∅ =
      .ok (some pc', ∅)) :
    ∃ jsonTree, cJSONParse (memberText attrib' value) = some jsonTree ∧
      ReadsObject (32 :: 34 :: (attrib'.val ++ 34 :: 58 :: 32 :: (value ++ [32, 125]))) jsonTree ∧
        ∀ member members, jsonTree = .object (member :: members) → pc.AllNamed := by
  rw [strings.setAttributeString_eq cJSONParse pc attrib source val htext, map_eq_pure_bind] at hrun
  obtain ⟨pc₁, held, hadded, -⟩ := bind_eq_ok.mp hrun
  obtain rfl := tidy_addJSONToTrees _ _ _ _ _ _ hadded
  obtain ⟨linked, hlinked, htakes, -⟩ := balanced_addJSONToTrees_iff.mp ⟨pc₁, hadded⟩ _
    (stripWhitespace_memberText attrib' value)
  obtain ⟨jsonTree, hparse, rfl⟩ := Option.map_eq_some_iff.mp hlinked
  have hobject := hparse
  rw [memberText_eq] at hobject
  refine ⟨jsonTree, hparse, hreader.object _ _ hobject, ?_⟩
  rintro member members rfl item hitem
  rw [hitem] at htakes
  cases htakes

end Setting

/-! ## The round trip -/

section RoundTrip

variable {strings : Strings} {cJSONParse : Text → Option Value}
  {combine : Option Value → CString → Tree → Value} {pc pc' : PlayerPC} {attrib source : CString}

/-- The bytes of `string` in `SetAttributeString`. -/
def stringBuffer (attrib : CString) (val : Option CString) : ℕ :=
  attrib.val.length + (match val with
    | none => 2
    | some val => val.val.length) + 11

theorem string_fits (attrib : CString) (val : Option CString) :
    (memberText attrib (stringText val)).length + 1 ≤ stringBuffer attrib val := by
  rw [length_memberText]
  cases val with
  | none =>
      simp only [stringText, stringBuffer, List.length_cons, List.length_nil]
      omega
  | some val =>
      simp only [stringText, stringBuffer, List.length_cons, List.length_append, List.length_nil]
      omega

/-- `SetAttributeString` fits its text into the buffer and returns, and `GetAttributeString` then
returns the string; for NULL, JSON null is stored. -/
def StringRoundTrip (strings : Strings) (cJSONParse : Text → Option Value)
    (combine : Option Value → CString → Tree → Value) (pc : PlayerPC) (attrib source : CString)
    (val : Option CString) : Prop :=
  (memberText attrib (stringText val)).length + 1 ≤ stringBuffer attrib val ∧
    ∃ pc', strings.setAttributeString cJSONParse (some pc) (some attrib) (some source) val ∅ =
        .ok (some pc', ∅) ∧
      match val with
      | none => pc'.stored attrib source = some .null
      | some val =>
          strings.getAttributeString combine (some pc') (some attrib) (some source) ∅ =
            .ok (some val, ∅)

/-- JSON escapes no byte of the string, and it is the spelling that is linked; for NULL, `null`
keeps its case when the text is linked. -/
def Strings.Keeps (strings : Strings) (attrib : CString) : Option CString → Prop
  | none => ∃ attrib' : CString, rank attrib' = rank attrib ∧
      (strings.memstrlink (.ofBytes (memberText attrib (stringText none)))).val =
        memberText attrib' (stringText none)
  | some val => PlainName val ∧ strings.memstrlink val = val

/-- What `GetAttributeString` returns for what is stored. -/
theorem Sound.getAttributeString (h : Sound pc) (hnamed : pc.AllNamed) {value : Value}
    (hstored : pc.stored attrib source = some value) :
    strings.getAttributeString combine (some pc) (some attrib) (some source) ∅ =
      .ok (value.valuestring.map strings.memstrlink, ∅) := by
  have hfinds : pc.Finds attrib source := by
    refine ⟨hnamed, fun _ ↦ ?_⟩
    rw [hstored]
    exact Option.some_ne_none value
  unfold Strings.getAttributeString
  rw [bind_of_ok ((h.getAttribute_eq combine attrib source).1 hfinds), hstored]
  cases value with
  | string text =>
      have hlink := strings.memstrlink_memstrlink text
      exact congrArg (fun text ↦ Except.ok (some text, ∅)) hlink
  | _ => rfl

theorem string_of_linked {value : Value} {val : CString}
    (h : (strings.linked value).clone.valuestring.map strings.memstrlink = some val) :
    ∃ s, value = .string s ∧ strings.memstrlink s = val := by
  cases value with
  | string s =>
      refine ⟨s, rfl, ?_⟩
      rw [← strings.memstrlink_memstrlink]
      exact Option.some.inj h
  | _ => cases h

theorem nul_not_mem_stringText (val : Option CString) : 0 ∉ stringText val := by
  cases val with
  | none => decide
  | some val => simp [stringText, val.property]

/-- The bytes of a text that is linked hold no NUL. -/
theorem nul_not_mem_of_linked {json attrib' : CString} {value : Text}
    (h : (strings.memstrlink json).val = memberText attrib' value) : 0 ∉ value := by
  have hnul := (strings.memstrlink json).property
  rw [h] at hnul
  exact fun hmem ↦ hnul (by simp [memberText, hmem])

/-- A string between quotes, as the text spells it. -/
theorem stringText_of_fold {val : CString} {text : Text} (hnul : 0 ∉ text)
    (h : fold text = fold (stringText (some val))) :
    ∃ val' : CString, text = stringText (some val') ∧ rank val' = rank val := by
  change fold text = fold ([34] ++ (val.val ++ [34])) at h
  obtain ⟨opening, behind, rfl, hopening, hbehind⟩ := exists_append_of_fold h
  obtain ⟨bytes, closing, rfl, hbytes, hclosing⟩ := exists_append_of_fold hbehind
  obtain rfl := eq_of_fold (caseless_of_mem (by decide)) hopening
  obtain rfl := eq_of_fold (caseless_of_mem (by decide)) hclosing
  refine ⟨⟨bytes, fun hmem ↦ hnul ?_⟩, rfl, hbytes⟩
  simp [hmem]

/-- A string without bytes that JSON escapes goes into the trees as it is linked. -/
theorem Sound.setAttributeString_plain (h : Sound pc) (hnamed : pc.AllNamed)
    (hreader : Reader cJSONParse) {val : Option CString} {attrib' : CString} {value : Value}
    (hattrib : PlainName attrib') (hrank : rank attrib' = rank attrib) (hvalue : Printable value)
    (htext : (strings.memstrlink (.ofBytes (memberText attrib (stringText val)))).val =
      memberText attrib' (printValue value 0)) (source : CString) :
    ∃ pc', strings.setAttributeString cJSONParse (some pc) (some attrib) (some source) val ∅ =
        .ok (some pc', ∅) ∧ Sound pc' ∧ pc'.AllNamed ∧
      pc'.stored attrib source = some (strings.linked value).clone := by
  have hparse := hreader.reads _ _ (read_memberText hattrib hvalue).2
  obtain ⟨pc', hrun, hsound, hnamed', hstored⟩ :=
    h.setAttributeString_members hnamed htext hparse source
  refine ⟨pc', hrun, hsound, hnamed', ?_⟩
  rw [hstored]
  have hfirst : rank (strings.memstrlink attrib') = rank attrib :=
    (strings.rank_memstrlink attrib').trans hrank
  simp [latest, Strings.linkedMember, hfirst]

/-- Where the call returns, the text has a first member with the name of the attribute. -/
theorem members_of_setAttributeString (hreader : Reader cJSONParse) (hattrib : PlainName attrib)
    {val : Option CString} {attrib' : CString} {c : UInt8} {value : Text} (hc : 32 < c)
    (hrank : rank attrib' = rank attrib)
    (htext : (strings.memstrlink (.ofBytes (memberText attrib (stringText val)))).val =
      memberText attrib' (c :: value))
    (hrun : strings.setAttributeString cJSONParse (some pc) (some attrib) (some source) val ∅ =
      .ok (some pc', ∅)) :
    PlainName attrib' ∧ pc.AllNamed ∧ ∃ first left members,
      cJSONParse (memberText attrib' (c :: value)) =
        some (.object ((attrib', first) :: members)) ∧
      ReadsValue (c :: (value ++ [32, 125])) first left := by
  have hplain : PlainName attrib' := plainName_of_fold hrank hattrib
  obtain ⟨jsonTree, hparse, hobject, hnamed⟩ := read_of_setAttributeString hreader htext hrun
  obtain ⟨first, left, members, rfl, hfirst, -⟩ := hobject.first hplain hc
  exact ⟨hplain, hnamed _ _ rfl, first, left, members, hparse, hfirst⟩

theorem keeps_of_string (hpc : Sound pc) (hreader : Reader cJSONParse)
    (hattrib : PlainName attrib) {val : CString}
    (htrip : StringRoundTrip strings cJSONParse combine pc attrib source (some val)) :
    pc.AllNamed ∧ strings.Keeps attrib (some val) := by
  obtain ⟨-, pc', hrun, hget⟩ := htrip
  obtain ⟨attrib', text, htext, hrank, hfold⟩ :=
    strings.linked_memberText attrib (nul_not_mem_stringText (some val))
  obtain ⟨val', rfl, hval⟩ := stringText_of_fold (nul_not_mem_of_linked htext) hfold
  obtain ⟨hplain, hnamed, first, left, members, hparse, -⟩ :=
    members_of_setAttributeString hreader hattrib (by decide) hrank htext hrun
  obtain ⟨pc₁, hrun₁, hsound, hnamed', hstored⟩ :=
    hpc.setAttributeString_members hnamed htext hparse source
  cases hrun₁.symm.trans hrun
  -- the value comes from one of the members
  obtain ⟨found, hfound, hlatest⟩ :=
    @exists_latest (strings.linkedMember (attrib', first)) _
      ((strings.rank_memstrlink attrib').trans hrank) (members.map strings.linkedMember)
      (pc.stored attrib source)
  rw [List.map_cons, hlatest] at hstored
  rw [← List.map_cons, List.mem_map] at hfound
  obtain ⟨member, hmember, rfl⟩ := hfound
  obtain ⟨s, hs, hlink⟩ : ∃ s, member.2 = .string s ∧ strings.memstrlink s = val := by
    have hread := (hsound.getAttributeString hnamed' hstored).symm.trans hget
    exact string_of_linked (congrArg Prod.fst (Except.ok.inj hread))
  refine ⟨hnamed, ?_, ?_⟩
  · by_contra hval'
    have hobject := hparse
    rw [memberText_eq, List.cons_append, List.append_assoc] at hobject
    obtain ⟨_, heq, hshort⟩ := (hreader.object _ _ hobject).spliced hplain
      (fun h ↦ hval' (plainName_of_fold hval.symm h))
    cases heq
    have hlt := hshort member hmember s hs
    have hsame : s.val.length = val'.val.length := by
      have hlength := congrArg List.length hval
      rw [← hlink] at hlength
      simpa [rank, fold, strings.length_memstrlink] using hlength.symm
    omega
  · rw [← hlink, strings.memstrlink_memstrlink]

theorem eq_of_toLower_n {c : UInt8} (h : (toLower c).toNat = 110) : c = 110 ∨ c = 78 := by
  have hall : ∀ n : Fin 256, (toLower (.ofNat n)).toNat = 110 →
      UInt8.ofNat n = 110 ∨ UInt8.ofNat n = 78 := by
    decide +kernel
  simpa using hall ⟨c.toNat, c.toNat_lt⟩ (by simpa using h)

/-- A word that is `null` but for the case, where a value can be read at it. -/
theorem null_of_reads {c : UInt8} {text left : Text} {value : Value}
    (h : fold (c :: text) = fold [110, 117, 108, 108])
    (hread : ReadsValue (c :: (text ++ [32, 125])) value left) :
    c :: text = [110, 117, 108, 108] := by
  obtain ⟨hhead, htail⟩ := List.cons.inj h
  have hc : c = 110 ∨ c = 78 := eq_of_toLower_n hhead
  generalize hbehind : text ++ [32, 125] = behind at hread
  cases hread with
  | null left =>
      have hlength : text.length = 3 := by simpa [fold] using congrArg List.length htail
      have htext : text = (text ++ [32, 125]).take 3 := by simp [hlength]
      rw [hbehind] at htext
      rw [htext]
      rfl
  | number value hdigit => rcases hc with rfl | rfl <;> exact absurd hdigit (by decide)
  | _ => exact absurd hc (by decide)

theorem keeps_of_null (hreader : Reader cJSONParse) (hattrib : PlainName attrib)
    (htrip : StringRoundTrip strings cJSONParse combine pc attrib source none) :
    pc.AllNamed ∧ strings.Keeps attrib none := by
  obtain ⟨-, pc', hrun, -⟩ := htrip
  obtain ⟨attrib', text, htext, hrank, hfold⟩ :=
    strings.linked_memberText attrib (nul_not_mem_stringText none)
  cases text with
  | nil => cases hfold
  | cons c text =>
      have hc : 32 < c := by
        rcases eq_of_toLower_n (List.cons.inj hfold).1 with rfl | rfl <;> decide
      obtain ⟨-, hnamed, first, left, members, -, hread⟩ :=
        members_of_setAttributeString hreader hattrib hc hrank htext hrun
      rw [null_of_reads hfold hread] at htext
      exact ⟨hnamed, attrib', hrank, htext⟩

theorem trip_of_keeps (hpc : Sound pc) (hreader : Reader cJSONParse) (hattrib : PlainName attrib)
    (hnamed : pc.AllNamed) {val : Option CString} (hkeeps : strings.Keeps attrib val) :
    StringRoundTrip strings cJSONParse combine pc attrib source val := by
  refine ⟨string_fits attrib val, ?_⟩
  cases val with
  | none =>
      obtain ⟨attrib', hrank, htext⟩ := hkeeps
      obtain ⟨pc', hrun, -, -, hstored⟩ := hpc.setAttributeString_plain hnamed hreader
        (plainName_of_fold hrank hattrib) hrank .null htext source
      exact ⟨pc', hrun, hstored⟩
  | some val =>
      obtain ⟨hplain, hlink⟩ := hkeeps
      obtain ⟨attrib', text, htext, hrank, hfold⟩ :=
        strings.linked_memberText attrib (nul_not_mem_stringText (some val))
      obtain ⟨val', rfl, hval⟩ := stringText_of_fold (nul_not_mem_of_linked htext) hfold
      have hplain' : PlainName val' := plainName_of_fold hval hplain
      have hprint : stringText (some val') = printValue (.string val') 0 := by
        rw [printValue, hplain'.printString]
        rfl
      rw [hprint] at htext
      obtain ⟨pc', hrun, hsound, hnamed', hstored⟩ := hpc.setAttributeString_plain hnamed hreader
        (plainName_of_fold hrank hattrib) hrank (.string hplain'.printableText) htext source
      refine ⟨pc', hrun, ?_⟩
      have hlink' : strings.memstrlink (strings.memstrlink val') = val := by
        rw [strings.memstrlink_memstrlink, strings.memstrlink_congr hval, hlink]
      dsimp only
      rw [hsound.getAttributeString hnamed' hstored]
      exact congrArg (fun val ↦ Except.ok (some val, ∅)) hlink'

/-- A string goes through the trees and back exactly if every item has a name, JSON escapes none of
its bytes, and no other spelling of it is linked. -/
theorem string_round_trip_iff (hpc : Linked cJSONParse pc) (hreader : Reader cJSONParse)
    (hattrib : PlainName attrib) (source : CString) (val : Option CString) :
    StringRoundTrip strings cJSONParse combine pc attrib source val ↔
      pc.AllNamed ∧ strings.Keeps attrib val := by
  refine ⟨fun htrip ↦ ?_, fun h ↦ trip_of_keeps hpc.sound hreader hattrib h.1 h.2⟩
  cases val with
  | none => exact keeps_of_null hreader hattrib htrip
  | some val => exact keeps_of_string hpc.sound hreader hattrib htrip

end RoundTrip

/-! ## Examples -/

/-- A string table on which every string is in lower case. -/
def lowerStrings : Strings where
  memstrlink s := ⟨lowerText s.val, by
    intro hmem
    obtain ⟨c, hc, hzero⟩ := List.mem_map.mp hmem
    have hpos := toLower_toNat_pos (c := c) (fun heq ↦ s.property (heq ▸ hc))
    rw [hzero] at hpos
    exact absurd hpos (by decide)⟩
  rank_memstrlink s := fold_lowerText s.val
  memstrlink_congr h := Subtype.ext (lowerText_of_fold h)

/-- `sex` is set to `male` for a race. -/
theorem string_round_trip_male :
    StringRoundTrip lowerStrings parse (fun _ _ _ ↦ .null) ⟨none, none⟩ sexName raceSource
      (some ⟨[109, 97, 108, 101], by decide⟩) :=
  (string_round_trip_iff .fresh reader_parse (by unfold PlainName; decide +kernel) raceSource
    (some _)).mpr ⟨nofun, by unfold PlainName; decide +kernel, by decide +kernel⟩

/-- A quote in the string ends it early. -/
theorem quoted_string_is_lost :
    Linked parse ⟨none, none⟩ ∧ PlainName sexName ∧ PlainName raceSource ∧
      ¬ StringRoundTrip lowerStrings parse (fun _ _ _ ↦ .null) ⟨none, none⟩ sexName raceSource
        (some ⟨[97, 34, 98], by decide⟩) := by
  refine ⟨.fresh, by unfold PlainName; decide +kernel, by unfold PlainName; decide +kernel, ?_⟩
  rintro ⟨-, pc', hrun, -⟩
  have hcrash : lowerStrings.setAttributeString parse (some ⟨none, none⟩) (some sexName)
      (some raceSource) (some ⟨[97, 34, 98], by decide⟩) ∅ = .error .crash := rfl
  cases hcrash.symm.trans hrun

end HavokMud.Attributes.Locks
