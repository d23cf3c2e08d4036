import HavokMud.Json.RoundTrip

/-!
# The members of a text

What `cJSON_Parse` can make of an object, whatever numbers and characters of four digits it reads:
where the strings of its members come from and how long they are.
-/

namespace HavokMud.Json

/-! ## Strings -/

/-- `parse_string` behind the opening quote: the bytes of the string and the text that is left.  The
digits of a character are not looked at. -/
inductive ReadsBytes : Text → Text → Text → Prop
  | ended : ReadsBytes [] [] []
  | quote (rest : Text) : ReadsBytes (34 :: rest) [] rest
  | control {c : UInt8} (hc : c ≤ 31) (rest : Text) : ReadsBytes (c :: rest) [] (c :: rest)
  | plain {c : UInt8} {rest out left : Text} (hc : 31 < c ∧ c ≠ 34 ∧ c ≠ 92)
      (hrest : ReadsBytes rest out left) : ReadsBytes (c :: rest) (c :: out) left
  | escape {d : UInt8} {rest out left : Text} (hd : d ≠ 117) (hrest : ReadsBytes rest out left) :
      ReadsBytes (92 :: d :: rest) (unescape d :: out) left
  | unicode {h₁ h₂ h₃ h₄ : UInt8} {bytes rest out left : Text} (hbytes : bytes.length ≤ 3)
      (hrest : ReadsBytes rest out left) :
      ReadsBytes (92 :: 117 :: h₁ :: h₂ :: h₃ :: h₄ :: rest) (bytes ++ out) left

theorem length_utf8_le (uc : ℕ) : (utf8 uc).length ≤ 3 := by
  unfold utf8
  split_ifs <;> simp

theorem readsBytes_parseBytes {text out left : Text} (h : parseBytes text = some (out, left)) :
    ReadsBytes text out left := by
  fun_induction parseBytes text generalizing out with
  | case1 =>
      cases h
      exact .ended
  | case2 rest =>
      cases h
      exact .quote _
  | case3 c rest hquote hc =>
      cases h
      exact .control hc rest
  | case4 c rest hquote hc hback ih =>
      obtain ⟨⟨out', left'⟩, hrest, heq⟩ := Option.map_eq_some_iff.mp h
      cases heq
      exact .plain ⟨UInt8.not_le.mp hc, hquote, hback⟩ (ih hrest)
  | case6 c hquote hc hback d rest hd ih =>
      obtain rfl := not_not.mp hback
      obtain ⟨⟨out', left'⟩, hrest, heq⟩ := Option.map_eq_some_iff.mp h
      cases heq
      exact .escape hd (ih hrest)
  | case7 c hquote hc hback d hd h₁ h₂ h₃ h₄ rest d₁ d₂ d₃ d₄ _ _ _ _ ih =>
      obtain rfl := not_not.mp hback
      obtain rfl := not_not.mp hd
      obtain ⟨⟨out', left'⟩, hrest, heq⟩ := Option.map_eq_some_iff.mp h
      cases heq
      exact .unicode (length_utf8_le _) (ih hrest)
  | _ => cases h

theorem ReadsBytes.length_le {text out left : Text} (h : ReadsBytes text out left) :
    out.length + left.length ≤ text.length := by
  induction h with
  | unicode hbytes _ ih =>
      simp only [List.length_append, List.length_cons]
      omega
  | _ =>
      simp only [List.length_cons, List.length_nil] at *
      omega

/-- A plain text without a closing quote is read to its end. -/
theorem ReadsBytes.left_eq_nil {text out left : Text} (h : ReadsBytes text out left)
    (htext : PlainName text) : left = [] := by
  induction h with
  | ended => rfl
  | quote rest => exact absurd rfl (htext 34 List.mem_cons_self).2.1
  | control hc rest => exact absurd (htext _ List.mem_cons_self).1 (UInt8.not_lt.mpr hc)
  | plain hc _ ih => exact ih fun c hmem ↦ htext c (List.mem_cons_of_mem _ hmem)
  | escape => exact absurd rfl (htext 92 List.mem_cons_self).2.2
  | unicode => exact absurd rfl (htext 92 List.mem_cons_self).2.2

/-- A plain text is read up to the closing quote. -/
theorem ReadsBytes.eq_of_plain {text rest out left : Text}
    (h : ReadsBytes (text ++ 34 :: rest) out left) (htext : PlainName text) :
    out = text ∧ left = rest := by
  induction text generalizing out with
  | nil =>
      rw [List.nil_append] at h
      cases h with
      | quote => exact ⟨rfl, rfl⟩
      | control hc => exact absurd hc (by decide)
      | plain hc => exact absurd rfl hc.2.1
  | cons c text ih =>
      have hc := htext c List.mem_cons_self
      rw [List.cons_append] at h
      generalize hbehind : text ++ 34 :: rest = behind at h
      cases h with
      | quote => exact absurd rfl hc.2.1
      | control hle => exact absurd hc.1 (UInt8.not_lt.mpr hle)
      | plain _ hrest =>
          subst hbehind
          obtain ⟨rfl, rfl⟩ := ih hrest fun d hd ↦ htext d (List.mem_cons_of_mem c hd)
          exact ⟨rfl, rfl⟩
      | escape => exact absurd rfl hc.2.2
      | unicode => exact absurd rfl hc.2.2

/-- What comes of bytes that were put between two quotes: all of them if they are plain, and
otherwise a shorter string, or a string that swallows the closing quote. -/
theorem ReadsBytes.spliced {text out left tail : Text} (h : ReadsBytes text out left)
    (htail : PlainName tail) {val : Text} (htext : text = val ++ 34 :: tail) :
    PlainName val ∨ out.length < val.length ∨ left = [] := by
  induction h generalizing val with
  | ended => cases val <;> cases htext
  | quote rest =>
      cases val with
      | nil => exact .inl nofun
      | cons c val => exact .inr (.inl (Nat.succ_pos _))
  | control hc rest =>
      cases val with
      | nil =>
          cases htext
          exact absurd hc (by decide)
      | cons c val => exact .inr (.inl (Nat.succ_pos _))
  | plain hc hrest ih =>
      cases val with
      | nil => exact .inl nofun
      | cons c val =>
          cases htext
          rcases ih rfl with hplain | hlt | hleft
          · exact .inl (List.forall_mem_cons.mpr ⟨hc, hplain⟩)
          · exact .inr (.inl (Nat.succ_lt_succ hlt))
          · exact .inr (.inr hleft)
  | escape hd hrest ih =>
      match val, htext with
      | [_], htext =>
          cases htext
          exact .inr (.inr (hrest.left_eq_nil htail))
      | _ :: _ :: val, htext =>
          cases htext
          rcases ih rfl with hplain | hlt | hleft
          · obtain ⟨rfl, rfl⟩ := hrest.eq_of_plain hplain
            exact .inr (.inl (Nat.lt_succ_self _))
          · exact .inr (.inl (Nat.lt_succ_of_lt (Nat.succ_lt_succ hlt)))
          · exact .inr (.inr hleft)
  | unicode hbytes hrest ih =>
      -- the closing quote is behind the four digits or one of them
      match val, htext with
      | [_, _], htext | [_, _, _], htext | [_, _, _, _], htext | [_, _, _, _, _], htext =>
          cases htext
          refine .inr (.inr (hrest.left_eq_nil fun c hc ↦ htail c ?_))
          simp [hc]
      | _ :: _ :: _ :: _ :: _ :: _ :: val, htext =>
          cases htext
          rw [List.length_append]
          simp only [List.length_cons]
          rcases ih rfl with hplain | hlt | hleft
          · obtain ⟨rfl, rfl⟩ := hrest.eq_of_plain hplain
            exact .inr (.inl (by omega))
          · exact .inr (.inl (by omega))
          · exact .inr (.inr hleft)

theorem length_ofBytes_le (bytes : Text) : (CString.ofBytes bytes).val.length ≤ bytes.length :=
  (List.takeWhile_prefix _).length_le

/-! ## Values -/

/-- `parse_value`: the value and the text that is left.  A number may be any, and the items and
members of an inner value too. -/
inductive ReadsValue : Text → Value → Text → Prop
  | null (left : Text) : ReadsValue (110 :: 117 :: 108 :: 108 :: left) .null left
  | false (left : Text) : ReadsValue (102 :: 97 :: 108 :: 115 :: 101 :: left) .false left
  | true (left : Text) : ReadsValue (116 :: 114 :: 117 :: 101 :: left) .true left
  | string {text bytes left : Text} (hbytes : ReadsBytes text bytes left) :
      ReadsValue (34 :: text) (.string (.ofBytes bytes)) left
  | number {c : UInt8} {text left : Text} (value : ℤ) (hc : c = 45 ∨ 48 ≤ c ∧ c ≤ 57)
      (hleft : left.length ≤ text.length + 1) : ReadsValue (c :: text) (.number value) left
  | array {text left : Text} (items : List Value) (hleft : left.length ≤ text.length) :
      ReadsValue (91 :: text) (.array items) left
  | object {text left : Text} (members : List (CString × Value))
      (hleft : left.length ≤ text.length) : ReadsValue (123 :: text) (.object members) left

theorem ReadsValue.length_le {text left : Text} {value : Value} (h : ReadsValue text value left) :
    left.length ≤ text.length := by
  cases h with
  | string hbytes =>
      have hlength := hbytes.length_le
      simp only [List.length_cons]
      omega
  | _ =>
      simp only [List.length_cons]
      omega

/-- A string is shorter than the text it is read from. -/
theorem ReadsValue.length_string {text left : Text} {s : CString}
    (h : ReadsValue text (.string s) left) : s.val.length + 1 ≤ text.length := by
  cases h with
  | string hbytes =>
      have hlength := hbytes.length_le
      have hstring := length_ofBytes_le ‹Text›
      simp only [List.length_cons]
      omega

theorem skip_length_le {text rest : Text} (h : skip text = some rest) :
    rest.length ≤ text.length := by
  fun_induction skip text with
  | case1 => cases h
  | case2 c text hc ih => exact Nat.le_succ_of_le (ih h)
  | case3 c text hc =>
      cases h
      exact le_rfl

theorem parseDigits_length_le (n : ℕ) (text : Text) :
    (parseDigits n text).2.length ≤ text.length := by
  fun_induction parseDigits n text with
  | case1 => exact le_rfl
  | case2 n c text hc ih => exact Nat.le_succ_of_le ih
  | case3 n c text hc => exact le_rfl

theorem parseNumber_length_le {text left : Text} {value : Value}
    (h : parseNumber text = some (value, left)) :
    (∃ n, value = .number n) ∧ left.length ≤ text.length := by
  have hsign : (parseSign text).2.length ≤ text.length := by
    unfold parseSign
    split
    · exact Nat.le_succ _
    · exact le_rfl
  have hzero : ∀ text : Text, (skipZero text).length ≤ text.length := by
    intro text
    unfold skipZero
    split
    · exact Nat.le_succ _
    · exact le_rfl
  have hunsigned : ∀ text : Text, (parseUnsigned text).2.length ≤ text.length := by
    intro text
    unfold parseUnsigned
    split_ifs
    · exact parseDigits_length_le 0 text
    · exact le_rfl
  unfold parseNumber at h
  dsimp only at h
  split_ifs at h
  all_goals
    cases h
    exact ⟨⟨_, rfl⟩, (hunsigned _).trans ((hzero _).trans hsign)⟩

theorem parseString_eq_some {text left : Text} {s : CString}
    (h : parseString text = some (s, left)) :
    ∃ rest bytes, text = 34 :: rest ∧ ReadsBytes rest bytes left ∧ s = .ofBytes bytes := by
  unfold parseString at h
  split at h
  · obtain ⟨⟨bytes, left'⟩, hbytes, heq⟩ := Option.map_eq_some_iff.mp h
    cases heq
    exact ⟨_, bytes, rfl, readsBytes_parseBytes hbytes, rfl⟩
  · cases h

/-! ## Members -/

/-- A turn of the loop of `parse_object`, up to the text behind the value. -/
inductive ReadsMember : Text → CString × Value → Text → Prop
  | mk {text first second third fourth bytes left : Text} {value : Value}
      (hname : skip text = some (34 :: first)) (hbytes : ReadsBytes first bytes second)
      (hcolon : skip second = some (58 :: third)) (hskip : skip third = some fourth)
      (hvalue : ReadsValue fourth value left) : ReadsMember text (.ofBytes bytes, value) left

/-- The loop of `parse_object`. -/
inductive ReadsMembers : Text → List (CString × Value) → Text → Prop
  | last {text left rest : Text} {member : CString × Value} (hmember : ReadsMember text member left)
      (hend : skip left = some (125 :: rest)) : ReadsMembers text [member] rest
  | more {text left rest last : Text} {member : CString × Value} {members : List (CString × Value)}
      (hmember : ReadsMember text member left) (hcomma : skip left = some (44 :: rest))
      (hmembers : ReadsMembers rest members last) : ReadsMembers text (member :: members) last

/-- `parse_object` behind the opening brace. -/
inductive ReadsObject : Text → Value → Prop
  | empty {text rest : Text} (hend : skip text = some (125 :: rest)) :
      ReadsObject text (.object [])
  | members {text rest : Text} {members : List (CString × Value)}
      (hmembers : ReadsMembers text members rest) : ReadsObject text (.object members)

theorem ReadsMember.length_le {text left : Text} {member : CString × Value}
    (h : ReadsMember text member left) :
    left.length + 2 ≤ text.length ∧
      ∀ s, member.2 = .string s → s.val.length + 3 ≤ text.length := by
  obtain ⟨hname, hbytes, hcolon, hskip, hvalue⟩ := h
  have h₁ := skip_length_le hname
  have h₂ := hbytes.length_le
  have h₃ := skip_length_le hcolon
  have h₄ := skip_length_le hskip
  have h₅ := hvalue.length_le
  simp only [List.length_cons] at h₁ h₃
  refine ⟨by omega, ?_⟩
  rintro s rfl
  have h₆ := hvalue.length_string
  omega

theorem ReadsMembers.length_le {text rest : Text} {members : List (CString × Value)}
    (h : ReadsMembers text members rest) :
    rest.length ≤ text.length ∧
      ∀ member ∈ members, ∀ s, member.2 = .string s → s.val.length + 3 ≤ text.length := by
  induction h with
  | last hmember hend =>
      have hlength := hmember.length_le
      have hskip := skip_length_le hend
      simp only [List.length_cons] at hskip
      refine ⟨by omega, ?_⟩
      intro member hmem
      obtain rfl := List.mem_singleton.mp hmem
      exact hlength.2
  | more hmember hcomma _ ih =>
      have hlength := hmember.length_le
      have hskip := skip_length_le hcomma
      simp only [List.length_cons] at hskip
      refine ⟨by omega, ?_⟩
      intro member hmem s hs
      rcases List.mem_cons.mp hmem with rfl | hmem
      · exact hlength.2 s hs
      · exact (ih.2 member hmem s hs).trans (by omega)

/-- The first member of an object, with a blank behind each token, and the members behind it. -/
theorem ReadsObject.first {name : CString} (hname : PlainName name) {c : UInt8} (hc : 32 < c)
    {text : Text} {value : Value}
    (h : ReadsObject (32 :: 34 :: (name.val ++ 34 :: 58 :: 32 :: c :: text)) value) :
    ∃ first left members, value = .object ((name, first) :: members) ∧
      ReadsValue (c :: text) first left ∧ left ≠ [] ∧
        (members = [] ∨ ∃ rest last, skip left = some (44 :: rest) ∧
          ReadsMembers rest members last) := by
  have hskip : skip (32 :: 34 :: (name.val ++ 34 :: 58 :: 32 :: c :: text)) =
      some (34 :: (name.val ++ 34 :: 58 :: 32 :: c :: text)) := by
    rw [skip_space, skip_of_lt (by decide)]
  have hmember : ∀ {member left}, ReadsMember
      (32 :: 34 :: (name.val ++ 34 :: 58 :: 32 :: c :: text)) member left →
        member.1 = name ∧ ReadsValue (c :: text) member.2 left := by
    rintro member left ⟨hfirst, hbytes, hcolon, hthird, hvalue⟩
    cases hskip.symm.trans hfirst
    obtain ⟨rfl, rfl⟩ := hbytes.eq_of_plain hname
    cases (skip_of_lt (by decide) _).symm.trans hcolon
    cases ((skip_space _).trans (skip_of_lt hc _)).symm.trans hthird
    exact ⟨CString.ofBytes_val name, hvalue⟩
  have hleft : ∀ {left rest : Text}, skip left = some rest → left ≠ [] := by
    rintro left rest hskip rfl
    cases hskip
  cases h with
  | empty hend => cases hskip.symm.trans hend
  | members hmembers =>
      cases hmembers with
      | @last _ left _ member hread hend =>
          obtain ⟨rfl, hvalue⟩ := hmember hread
          exact ⟨member.2, left, [], rfl, hvalue, hleft hend, .inl rfl⟩
      | @more _ left rest _ member members hread hcomma hrest =>
          obtain ⟨rfl, hvalue⟩ := hmember hread
          exact ⟨member.2, left, members, rfl, hvalue, hleft hcomma,
            .inr ⟨rest, _, hcomma, hrest⟩⟩

/-- Bytes that were put between two quotes and are not plain: no string of the object is as long as
they are. -/
theorem ReadsObject.spliced {name : CString} (hname : PlainName name) {val : Text}
    (hval : ¬ PlainName val) {value : Value}
    (h : ReadsObject (32 :: 34 :: (name.val ++ 34 :: 58 :: 32 :: 34 :: (val ++ [34, 32, 125])))
      value) :
    ∃ members, value = .object members ∧
      ∀ member ∈ members, ∀ s, member.2 = .string s → s.val.length < val.length := by
  obtain ⟨first, left, members, rfl, hfirst, hleft, hmembers⟩ := h.first hname (by decide)
  refine ⟨_, rfl, ?_⟩
  cases hfirst with
  | number value hc => exact absurd hc (by decide)
  | @string _ bytes _ hbytes =>
      have hlength := hbytes.length_le
      rw [List.length_append] at hlength
      simp only [List.length_cons, List.length_nil] at hlength
      refine List.forall_mem_cons.mpr ⟨?_, ?_⟩
      · intro s hs
        cases hs
        rcases hbytes.spliced (by unfold PlainName; decide +kernel) rfl with hplain | hlt | hnil
        · exact absurd hplain hval
        · exact (length_ofBytes_le bytes).trans_lt hlt
        · exact absurd hnil hleft
      · rcases hmembers with rfl | ⟨rest, last, hcomma, hrest⟩
        · nofun
        · intro member hmember s hs
          have hskip := skip_length_le hcomma
          have hstring := hrest.length_le.2 member hmember s hs
          simp only [List.length_cons] at hskip
          omega

/-! ## What `parse` reads -/

theorem eq_append_of_take {text pre : Text} {n : ℕ} (h : text.take n = pre) :
    text = pre ++ text.drop n := by
  rw [← h, List.take_append_drop]

/-- The branches of `parse_value` behind the three words. -/
theorem readsValue_step {fuel : ℕ}
    (hitems : ∀ {text items left}, parseItems fuel text = some (items, left) →
      left.length ≤ text.length)
    (hmembers : ∀ {text members left}, parseMembers fuel text = some (members, left) →
      ReadsMembers text members left) {text left : Text} {value : Value}
    (h : parseValue (fuel + 1) text = some (value, left)) : ReadsValue text value left := by
  rw [parseValue.eq_def] at h
  dsimp only at h
  by_cases hnull : text.take 4 = [110, 117, 108, 108]
  · rw [if_pos hnull] at h
    cases h
    rw [eq_append_of_take hnull]
    exact .null _
  rw [if_neg hnull] at h
  by_cases hfalse : text.take 5 = [102, 97, 108, 115, 101]
  · rw [if_pos hfalse] at h
    cases h
    rw [eq_append_of_take hfalse]
    exact .false _
  rw [if_neg hfalse] at h
  by_cases htrue : text.take 4 = [116, 114, 117, 101]
  · rw [if_pos htrue] at h
    cases h
    rw [eq_append_of_take htrue]
    exact .true _
  rw [if_neg htrue] at h
  cases text with
  | nil => cases h
  | cons c rest =>
      dsimp only at h
      split_ifs at h with hquote hnumber harray hobject
      · obtain ⟨⟨s, left'⟩, hstring, heq⟩ := Option.map_eq_some_iff.mp h
        cases heq
        obtain ⟨rest', bytes, heq, hbytes, rfl⟩ := parseString_eq_some hstring
        cases heq
        exact .string hbytes
      · obtain ⟨⟨n, rfl⟩, hleft⟩ := parseNumber_length_le h
        exact .number n hnumber hleft
      · subst harray
        obtain ⟨behind, hskip, h⟩ := Option.bind_eq_some_iff.mp h
        have hlength := skip_length_le hskip
        split_ifs at h with hend
        · cases h
          exact .array [] ((List.tail_suffix behind).length_le.trans hlength)
        · obtain ⟨⟨items, left'⟩, hparse, heq⟩ := Option.map_eq_some_iff.mp h
          cases heq
          exact .array items ((hitems hparse).trans hlength)
      · subst hobject
        obtain ⟨behind, hskip, h⟩ := Option.bind_eq_some_iff.mp h
        have hlength := skip_length_le hskip
        split_ifs at h with hend
        · cases h
          exact .object [] ((List.tail_suffix behind).length_le.trans hlength)
        · obtain ⟨⟨members, left'⟩, hparse, heq⟩ := Option.map_eq_some_iff.mp h
          cases heq
          exact .object members ((hmembers hparse).length_le.1.trans hlength)

theorem parseItems_step {fuel : ℕ}
    (hvalue : ∀ {text value left}, parseValue fuel text = some (value, left) →
      ReadsValue text value left)
    (hitems : ∀ {text items left}, parseItems fuel text = some (items, left) →
      left.length ≤ text.length) {text left : Text} {items : List Value}
    (h : parseItems (fuel + 1) text = some (items, left)) : left.length ≤ text.length := by
  rw [parseItems] at h
  obtain ⟨first, hfirst, h⟩ := Option.bind_eq_some_iff.mp h
  obtain ⟨⟨value, second⟩, hparse, h⟩ := Option.bind_eq_some_iff.mp h
  obtain ⟨third, hthird, h⟩ := Option.bind_eq_some_iff.mp h
  have h₁ := skip_length_le hfirst
  have h₂ := (hvalue hparse).length_le
  have h₃ := skip_length_le hthird
  dsimp only at h₃
  split at h
  · obtain ⟨⟨items', left'⟩, hrest, heq⟩ := Option.map_eq_some_iff.mp h
    have h₄ := hitems hrest
    cases heq
    simp only [List.length_cons] at h₃
    dsimp only
    omega
  · cases h
    simp only [List.length_cons] at h₃
    omega
  · cases h

theorem readsMembers_step {fuel : ℕ}
    (hvalue : ∀ {text value left}, parseValue fuel text = some (value, left) →
      ReadsValue text value left)
    (hmembers : ∀ {text members left}, parseMembers fuel text = some (members, left) →
      ReadsMembers text members left) {text left : Text} {members : List (CString × Value)}
    (h : parseMembers (fuel + 1) text = some (members, left)) : ReadsMembers text members left := by
  rw [parseMembers] at h
  obtain ⟨first, hfirst, h⟩ := Option.bind_eq_some_iff.mp h
  obtain ⟨⟨name, second⟩, hname, h⟩ := Option.bind_eq_some_iff.mp h
  obtain ⟨third, hthird, h⟩ := Option.bind_eq_some_iff.mp h
  obtain ⟨behind, bytes, rfl, hbytes, rfl⟩ := parseString_eq_some hname
  dsimp only at h
  split at h
  · obtain ⟨fourth, hfourth, h⟩ := Option.bind_eq_some_iff.mp h
    obtain ⟨⟨value, fifth⟩, hparse, h⟩ := Option.bind_eq_some_iff.mp h
    obtain ⟨sixth, hsixth, h⟩ := Option.bind_eq_some_iff.mp h
    have hmember := ReadsMember.mk hfirst hbytes hthird hfourth (hvalue hparse)
    dsimp only at h
    split at h
    · obtain ⟨⟨members', left'⟩, hrest, heq⟩ := Option.map_eq_some_iff.mp h
      cases heq
      exact .more hmember hsixth (hmembers hrest)
    · cases h
      exact .last hmember hsixth
    · cases h
  · cases h

theorem reads_parse (fuel : ℕ) :
    (∀ {text value left}, parseValue fuel text = some (value, left) → ReadsValue text value left) ∧
      (∀ {text items left}, parseItems fuel text = some (items, left) →
        left.length ≤ text.length) ∧
      ∀ {text members left}, parseMembers fuel text = some (members, left) →
        ReadsMembers text members left := by
  induction fuel with
  | zero =>
      refine ⟨fun h ↦ ?_, fun h ↦ ?_, fun h ↦ ?_⟩
      · rw [parseValue] at h
        cases h
      · rw [parseItems] at h
        cases h
      · rw [parseMembers] at h
        cases h
  | succ fuel ih =>
      obtain ⟨hvalue, hitems, hmembers⟩ := ih
      exact ⟨readsValue_step hitems hmembers, parseItems_step hvalue hitems,
        readsMembers_step hvalue hmembers⟩

/-- What is relied on of `cJSON_Parse`: it reads what `parse` reads, and of an object nothing but
what stands there. -/
structure Reader (cJSONParse : Text → Option Value) : Prop where
  reads : ∀ text value, parse text = some value → cJSONParse text = some value
  object : ∀ text value, cJSONParse (123 :: text) = some value → ReadsObject text value

theorem reader_parse : Reader parse where
  reads _ _ h := h
  object text value h := by
    unfold parse at h
    rw [skip_of_lt (by decide), Option.bind_some] at h
    obtain ⟨⟨value', left⟩, hparse, heq⟩ := Option.map_eq_some_iff.mp h
    cases heq
    rw [List.length_cons, parseValue_cons (by decide) (by decide) (by decide), if_neg (by decide),
      if_neg (by decide), if_neg (by decide), if_pos rfl] at hparse
    obtain ⟨behind, hskip, hparse⟩ := Option.bind_eq_some_iff.mp hparse
    split_ifs at hparse with hend
    · cases hparse
      cases behind with
      | nil => cases hend
      | cons c rest =>
          cases hend
          exact .empty hskip
    · obtain ⟨⟨members, left'⟩, hmembers, heq⟩ := Option.map_eq_some_iff.mp hparse
      cases heq
      rw [← parseMembers_of_skip (skip_skip hskip).symm] at hmembers
      exact .members ((reads_parse _).2.2 hmembers)

end HavokMud.Json
