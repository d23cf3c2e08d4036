import HavokMud.Attributes.RoundTrip

/-!
# What is lost of the sources

Bytes without an escape are dropped from names and strings, and a source without attributes is
dropped as a whole.  What comes back of a source shows what the source held exactly if nothing of it
was dropped.
-/

namespace HavokMud.Attributes

open BinaryTree BTree SearchTree Json

/-! ## What printing keeps of a source -/

/-- What `held` shows of a value. -/
def shown (value : Value) : JsonType × ℤ × Option CString :=
  (value.type, value.valueint, value.valuestring)

theorem printByte_toLower (c : UInt8) : printByte (toLower c) = [] ↔ printByte c = [] := by
  unfold toLower
  split_ifs with hrange
  · have hlow := UInt8.le_iff_toNat_le.mp hrange.1
    have hhigh := UInt8.le_iff_toNat_le.mp hrange.2
    have hnat : (c + 32).toNat = c.toNat + 32 := by
      rw [UInt8.toNat_add, show (32 : UInt8).toNat = 32 from rfl]
      apply Nat.mod_eq_of_lt
      change c.toNat ≤ 90 at hhigh
      omega
    have hprinted : ∀ d : UInt8, 65 ≤ d.toNat → printByte d ≠ [] := by
      intro d hd
      apply (printableText_of_le _ : PrintableText [d]) d List.mem_cons_self
      intro c hc
      rw [List.mem_singleton.mp hc, UInt8.le_iff_toNat_le]
      exact le_trans (by decide) hd
    change 65 ≤ c.toNat at hlow
    simp only [hprinted c hlow, hprinted (c + 32) (by omega)]
  · exact Iff.rfl

/-- Names that differ in case only are printed without loss together. -/
theorem printableText_of_fold {name other : Text} (hfold : fold name = fold other)
    (hname : PrintableText name) : PrintableText other := by
  intro c hc hlost
  have hmem : (toLower c).toNat ∈ fold name := by
    rw [hfold]
    exact List.mem_map_of_mem hc
  obtain ⟨d, hd, heq⟩ := List.mem_map.mp hmem
  apply hname d hd
  rw [← printByte_toLower, UInt8.toNat_inj.mp heq, printByte_toLower]
  exact hlost

/-- The value of an attribute comes from one of the members. -/
theorem mem_of_latest {members : List (CString × Value)} {attrib : List ℕ}
    {old value : Option Value}
    (h : latest members attrib old = value) :
    value = old ∨ ∃ member ∈ members, rank member.1 = attrib ∧ value = some member.2.clone := by
  induction members generalizing old with
  | nil => exact .inl h.symm
  | cons first members ih =>
      rcases ih h with heq | ⟨member, hmember, hrank, heq⟩
      · dsimp only at heq
        split_ifs at heq with hfirst
        · exact .inr ⟨first, List.mem_cons_self, hfirst, heq⟩
        · exact .inl heq
      · exact .inr ⟨member, List.mem_cons_of_mem first hmember, hrank, heq⟩

/-- Behind a member of the attribute the value comes from a member. -/
theorem exists_latest {first : CString × Value} {attrib : List ℕ} (hfirst : rank first.1 = attrib)
    (members : List (CString × Value)) (old : Option Value) :
    ∃ found ∈ first :: members,
      latest (first :: members) attrib old = some found.2.clone := by
  rw [latest, List.foldl_cons, if_pos hfirst]
  rcases @mem_of_latest members _ _ _ rfl with heq | ⟨found, hfound, -, heq⟩
  · exact ⟨first, List.mem_cons_self, heq⟩
  · exact ⟨found, List.mem_cons_of_mem first hfound, heq⟩

theorem latest_ne_none {members : List (CString × Value)} {member : CString × Value}
    (hmember : member ∈ members) {attrib : List ℕ} (hrank : rank member.1 = attrib)
    (old : Option Value) : latest members attrib old ≠ none := by
  induction members generalizing old with
  | nil => cases hmember
  | cons first members ih =>
      rcases List.mem_cons.mp hmember with rfl | hmember
      · obtain ⟨found, -, heq⟩ := exists_latest hrank members old
        rw [heq]
        exact Option.some_ne_none _
      · exact ih hmember _

/-- Among elements of distinct keys, the one of a key is found. -/
theorem find?_of_key {α ω : Type} [DecidableEq ω] {key : α → ω} {xs : List α}
    (hdistinct : xs.Pairwise fun x y ↦ key x ≠ key y) {x : α} (hx : x ∈ xs) :
    (xs.find? fun y ↦ key y = key x) = some x := by
  induction xs with
  | nil => cases hx
  | cons y xs ih =>
      obtain ⟨hy, hxs⟩ := List.pairwise_cons.mp hdistinct
      rcases List.mem_cons.mp hx with rfl | hx
      · exact List.find?_cons_of_pos (by simp)
      · rw [List.find?_cons_of_neg (by simpa using hy x hx)]
        exact ih hxs hx

/-- A source is read back as it was exactly if all of it is printed without loss. -/
theorem latest_kept_iff {members : List (CString × Value)}
    (hdistinct : members.Pairwise fun first second ↦ rank first.1 ≠ rank second.1)
    (hfits : ∀ member ∈ members, member.2.Fits) :
    (∀ attrib, (latest (members.map keptMember) attrib none).map shown =
        (members.find? fun member ↦ rank member.1 = attrib).map fun member ↦ shown member.2) ↔
      ∀ member ∈ members, Plain member := by
  constructor
  · intro h
    have hnames : ∀ member ∈ members, PrintableText member.1 := by
      intro member hmember
      have hvalue := h (rank member.1)
      rw [find?_of_key hdistinct hmember, Option.map_some] at hvalue
      obtain ⟨value, hlatest, -⟩ := Option.map_eq_some_iff.mp hvalue
      rcases mem_of_latest hlatest with hnone | ⟨kept, hkept, hrank, -⟩
      · cases hnone
      · obtain ⟨old, -, rfl⟩ := List.mem_map.mp hkept
        exact printableText_of_fold hrank (printableText_keptText old.1.val)
    have hkept : ∀ member ∈ members, (keptMember member).1 = member.1 :=
      fun member hmember ↦ keptString_eq_self (hnames member hmember)
    intro member hmember
    have hsame : (members.map keptMember).Pairwise fun first second ↦
        rank first.1 ≠ rank second.1 := by
      rw [List.pairwise_map]
      apply hdistinct.imp_of_mem
      intro first second hfirst hsecond hne
      rwa [hkept first hfirst, hkept second hsecond]
    have hvalue := h (rank member.1)
    have hfind := find?_of_key hsame (List.mem_map_of_mem hmember)
    rw [hkept member hmember] at hfind
    rw [find?_of_key hdistinct hmember, latest_eq_find? hsame, hfind] at hvalue
    have hshown : shown (keptMember member).2.clone = shown member.2 := Option.some.inj hvalue
    refine ⟨hnames member hmember, hfits member hmember, ?_⟩
    have hprintable := (hfits member hmember).printable_kept
    have hkeptValue : (keptMember member).2 = keptValue member.2 := rfl
    rw [hkeptValue] at hshown
    cases hcase : member.2 with
    | string text =>
        rw [hcase] at hshown
        have htext : keptString text = text :=
            Option.some.inj (congrArg (fun shown ↦ shown.2.2) hshown)
        rw [hcase, keptValue, htext] at hprintable
        exact hprintable
    | _ =>
        rw [hcase] at hprintable
        exact hprintable
  · intro h attrib
    rw [map_keptMember h, latest_eq_find? hdistinct, Option.map_map]
    cases hfind : members.find? fun member ↦ rank member.1 = attrib with
    | none => rfl
    | some member =>
        have hmember := hfits member (List.mem_of_find?_eq_some hfind)
        rw [Option.map_some, Option.map_some, Function.comp_apply,
          Value.clone_of_scalar hmember.scalar]

/-! ## The sources with attributes -/

/-- The attributes of a pc are scalars of their size, in trees that are ordered. -/
structure Scalars (player : PlayerPC) : Prop where
  ordered : Ordered player.sourceTrees
  fits : ∀ e ∈ sourcesOf player.sourceTrees, ∀ member ∈ e.2, member.2.Fits

/-- The sources that have attributes. -/
def filledSources (player : PlayerPC) : List Source :=
  (sourcesOf player.sourceTrees).filter fun e ↦ e.2 ≠ []

theorem Scalars.filled {player : PlayerPC} (h : Scalars player) :
    ∀ e ∈ filledSources player, Filled e := by
  intro e he
  obtain ⟨he, hne⟩ := List.mem_filter.mp he
  exact ⟨h.fits e he, by simpa using hne⟩

theorem Scalars.distinct {player : PlayerPC} (h : Scalars player) :
    (filledSources player).Pairwise fun e e' ↦ rank e.1 ≠ rank e'.1 := by
  apply List.Pairwise.filter
  rw [sourcesOf, List.pairwise_map]
  exact List.Pairwise.imp (fun hlt ↦ hlt.ne) h.ordered.outer

theorem Scalars.distinct_members {player : PlayerPC} (h : Scalars player) {e : Source}
    (he : e ∈ filledSources player) :
    e.2.Pairwise fun member member' ↦ rank member.1 ≠ rank member'.1 := by
  obtain ⟨old, hold, rfl⟩ := List.mem_map.mp (List.mem_of_mem_filter he)
  exact List.Pairwise.imp (fun hlt ↦ hlt.ne) (h.ordered.inner old hold)

/-- A source without attributes has no text, and the combined text leaves it out. -/
theorem combineJSON_filter (es : List Source) :
    combineJSON (es.map textOf) = combineJSON ((es.filter fun e ↦ e.2 ≠ []).map textOf) := by
  have hparts : (es.map textOf).filterMap (fun part ↦
      (part.json.bind parse).map fun value ↦ (part.source, value)) =
        ((es.filter fun e ↦ e.2 ≠ []).map textOf).filterMap fun part ↦
          (part.json.bind parse).map fun value ↦ (part.source, value) := by
    induction es with
    | nil => rfl
    | cons e es ih =>
        by_cases hempty : e.2 = []
        · rw [List.filter_cons_of_neg (by simpa using hempty), ← ih, List.map_cons,
            List.filterMap_cons_none]
          rw [textOf, hempty]
          rfl
        · rw [List.filter_cons_of_pos (by simpa using hempty), List.map_cons, List.map_cons,
            List.filterMap_cons, List.filterMap_cons, ih]
  unfold combineJSON
  rw [hparts]

/-- What a pc holds is in the sources that have attributes. -/
theorem Scalars.held_eq {player : PlayerPC} (h : Scalars player) (source attrib : List ℕ) :
    held player.sources source attrib =
      ((filledSources player).find? fun e ↦ rank e.1 = source).bind fun e ↦
        (e.2.find? fun member ↦ rank member.1 = attrib).map fun member ↦ shown member.2 := by
  have hvalue : held player.sources source attrib =
      (entry player.sourceTrees source attrib).map shown := Attributes.held_eq _ _ _
  rw [hvalue, entry, Dictionary.value_eq_find?, Option.bind_map, Option.map_bind]
  cases hfind : (filledSources player).find? fun e ↦ rank e.1 = source with
  | some e =>
      have he := List.mem_of_find?_eq_some hfind
      obtain ⟨old, hold, rfl⟩ := List.mem_map.mp (List.mem_of_mem_filter he)
      have hrank : rank old.1 = source := by simpa using List.find?_some hfind
      subst hrank
      rw [find?_of_key (List.Pairwise.imp (fun hlt ↦ hlt.ne) h.ordered.outer) hold,
        Option.bind_some,
        Option.bind_some]
      change (Dictionary.value rank old.2 attrib).map shown = _
      rw [Dictionary.value_eq_find?, Option.map_map]
      rfl
  | none =>
      cases hold : (inorder player.sourceTrees).find? fun e ↦ rank e.1 = source with
      | none => rfl
      | some e =>
          have hempty : inorder e.2 = [] := by
            by_contra hne
            have hmem : (e.1, inorder e.2) ∈ filledSources player :=
              List.mem_filter.mpr ⟨List.mem_map_of_mem (List.mem_of_find?_eq_some hold),
                by simpa using hne⟩
            have hrank : rank e.1 = source := by simpa using List.find?_some hold
            exact List.find?_eq_none.mp hfind _ hmem (by simpa using hrank)
          rw [Option.bind_some]
          change (Dictionary.value rank e.2 attrib).map shown = none
          rw [Dictionary.value_eq_find?, hempty]
          rfl

/-- The text that is saved for a pc. -/
theorem Scalars.combine_eq {player : PlayerPC} (h : Scalars player) {js : List JSONSource}
    (hjs : extractJSONFromTree player = some js) :
    combineJSON js = combineJSON ((filledSources player).map textOf) := by
  obtain ⟨sources, hsources, -⟩ := Option.map_eq_some_iff.mp hjs
  have hfits := h.fits
  rw [filledSources, ← combineJSON_filter]
  rw [PlayerPC.sourceTrees, hsources, Option.getD_some] at hfits ⊢
  rw [extract_eq hsources hfits] at hjs
  rw [← Option.some.inj hjs]

theorem kept_eq_of_print {members members' : List (CString × Value)}
    (h : ∀ member ∈ members, member.2.Fits) (hne : members ≠ [])
    (h' : ∀ member ∈ members', member.2.Fits) (hne' : members' ≠ [])
    (hprint : print (.object members) = print (.object members')) :
    members.map keptMember = members'.map keptMember := by
  obtain ⟨text, htext, hparse, -⟩ := exists_text h hne
  obtain ⟨text', htext', hparse', -⟩ := exists_text h' hne'
  rw [htext, htext'] at hprint
  rw [Option.some.inj hprint, hparse'] at hparse
  injection hparse with hparse
  injection hparse with hparse
  exact hparse.symm

theorem sources_ne_none {player : PlayerPC} {e : Source}
    (he : e ∈ filledSources player) : player.sources ≠ none := by
  intro hnone
  rw [filledSources, PlayerPC.sourceTrees, hnone] at he
  cases he

/-- A source with attributes shows in what the pc holds. -/
theorem Scalars.held_ne_none {player : PlayerPC} (h : Scalars player) {e : Source}
    (he : e ∈ filledSources player) : ∃ attrib, held player.sources (rank e.1) attrib ≠ none := by
  obtain ⟨member, hmember⟩ := List.exists_mem_of_ne_nil _ (h.filled e he).filled
  refine ⟨rank member.1, ?_⟩
  rw [h.held_eq, find?_of_key h.distinct he, Option.bind_some,
    find?_of_key (h.distinct_members he) hmember]
  exact Option.some_ne_none _

/-- A row that shows what the pc holds belongs to the only source with attributes. -/
theorem Scalars.filledSources_eq {player : PlayerPC} (h : Scalars player) {e : Source}
    (he : Filled e) (hheld : ∀ source attrib,
      (if rank e.1 = source then (latest (e.2.map keptMember) attrib none).map shown else none) =
        held player.sources source attrib) :
    ∃ f, filledSources player = [f] ∧ rank e.1 = rank f.1 := by
  have hranks : ∀ f ∈ filledSources player, rank e.1 = rank f.1 := by
    intro f hf
    obtain ⟨attrib, hne⟩ := h.held_ne_none hf
    rw [← hheld] at hne
    by_contra hother
    exact hne (if_neg hother)
  cases hsources : filledSources player with
  | nil =>
      -- the row has an attribute, and the pc has none
      obtain ⟨member, hmember⟩ := List.exists_mem_of_ne_nil _ he.filled
      have hnone := hheld (rank e.1) (rank (keptMember member).1)
      rw [if_pos rfl, h.held_eq, hsources, List.find?_nil, Option.bind_none,
        Option.map_eq_none_iff] at hnone
      exact absurd hnone (latest_ne_none (List.mem_map_of_mem hmember) rfl none)
  | cons f rest =>
      rw [hsources] at hranks
      have hdistinct := h.distinct
      rw [hsources] at hdistinct
      refine ⟨f, ?_, hranks f List.mem_cons_self⟩
      cases rest with
      | nil => rfl
      | cons f' rest =>
          have hne := (List.pairwise_cons.mp hdistinct).1 f' List.mem_cons_self
          exact absurd ((hranks f List.mem_cons_self).symm.trans
            (hranks f' (List.mem_cons_of_mem f List.mem_cons_self))) hne

theorem scalars_of_reachable {player : PlayerPC} (h : Reachable player) : Scalars player where
  ordered := h.inv.wellFormed.sources
  fits := by
    intro e he member hmember
    obtain ⟨old, hold, rfl⟩ := List.mem_map.mp he
    exact (h.inv.plain.members old hold member hmember).fits

end HavokMud.Attributes
