import HavokMud.Login.Machine
import HavokMud.Matching.Backtracking
import Mathlib.Data.List.TakeWhile

/-!
# E-mail addresses

`parseEmail` searches its argument for an address, and stores the address that it finds.  The search
is not anchored, so what is stored need not be the whole argument.
-/

namespace HavokMud.Login

open Matching Mysql

/-! ## The pattern -/

/-- `[a-z]`, whatever the case. -/
def isLetter (c : UInt8) : Bool :=
  (65 ≤ c ∧ c ≤ 90) ∨ (97 ≤ c ∧ c ≤ 122)

/-- `[a-z0-9\-]`, whatever the case. -/
def isLabel (c : UInt8) : Bool :=
  isLetter c ∨ (48 ≤ c ∧ c ≤ 57) ∨ c = 45

/-- `[a-z0-9._\-]`, whatever the case. -/
def isLocal (c : UInt8) : Bool :=
  isLabel c ∨ c = 46 ∨ c = 95

/-- The character itself. -/
def char (c : UInt8) : Pattern UInt8 :=
  .one fun d ↦ d = c

/-- What is inside of the first group of `EMAIL_PATTERN`. -/
def emailAddress : Pattern UInt8 :=
  .seq (.one isLetter) <| .seq (.atLeastOne isLocal) <| .seq (char 64) <|
    .seq (.group 2 (.seq (.atLeastOne isLabel) (char 46))) (.atLeastOne isLetter)

/-- `EMAIL_PATTERN`. -/
def emailPattern : Pattern UInt8 :=
  .seq (.many isSpace) (.seq (.group 1 emailAddress) (.many isSpace))

/-- `parseEmail`: the address that is stored if it returns TRUE, without the NUL that ends it. -/
def parseEmail (arg : Text) : Option Text :=
  (emailPattern.search arg).bind fun m ↦ m.groups.lookup 1

/-- The size of `email` in `do_state_get_email`. -/
def emailSize : ℕ := 1024

/-! ## Addresses -/

/-- An address: a letter and at least one more character, an `@`, one label with its dot, and
letters. -/
def Address (w : Text) : Prop :=
  ∃ first name label top, w = first :: (name ++ 64 :: (label ++ 46 :: top)) ∧
    isLetter first = true ∧ (name ≠ [] ∧ ∀ c ∈ name, isLocal c = true) ∧
    (label ≠ [] ∧ ∀ c ∈ label, isLabel c = true) ∧ top ≠ [] ∧ ∀ c ∈ top, isLetter c = true

/-- The argument without its leading and trailing white space. -/
def trim (arg : Text) : Text :=
  ((arg.dropWhile isSpace).reverse.dropWhile isSpace).reverse

variable {arg w email : Text}

theorem accepts_char {c : UInt8} : (char c).Accepts w ↔ w = [c] := by
  constructor
  · rintro ⟨x, rfl, hx⟩
    rw [of_decide_eq_true hx]
  · rintro rfl
    exact ⟨c, rfl, decide_eq_true rfl⟩

theorem accepts_emailAddress : emailAddress.Accepts w ↔ Address w := by
  constructor
  · rintro ⟨_, _, rfl, ⟨first, rfl, hfirst⟩, name, _, rfl, hname, _, _, rfl, hat, _, top, rfl,
      ⟨label, _, rfl, hlabel, hdot⟩, htop⟩
    obtain rfl := accepts_char.mp hat
    obtain rfl := accepts_char.mp hdot
    refine ⟨first, name, label, top, ?_, hfirst, Pattern.accepts_atLeastOne.mp hname,
      Pattern.accepts_atLeastOne.mp hlabel, Pattern.accepts_atLeastOne.mp htop⟩
    simp only [List.append_assoc, List.singleton_append]
  · rintro ⟨first, name, label, top, rfl, hfirst, hname, hlabel, htop⟩
    refine ⟨[first], _, rfl, ⟨first, rfl, hfirst⟩, name, _, rfl,
      Pattern.accepts_atLeastOne.mpr hname, [64], _, rfl, accepts_char.mpr rfl, label ++ [46], top,
      ?_, ⟨label, [46], rfl, Pattern.accepts_atLeastOne.mpr hlabel, accepts_char.mpr rfl⟩,
      Pattern.accepts_atLeastOne.mpr htop⟩
    exact (List.append_assoc label [46] top).symm

/-! ## What is found -/

/-- The first group of a match is an address. -/
theorem address_of_mem {m : Match UInt8} (h : m ∈ emailPattern.matchesAt arg) :
    ∃ w groups, m.groups = (1, w) :: groups ∧ Address w ∧ w <:+: arg := by
  obtain ⟨m₁, hm₁, m₂, hm₂, rfl⟩ := Pattern.mem_matchesAt_seq.mp h
  obtain ⟨m₃, hm₃, m₄, hm₄, rfl⟩ := Pattern.mem_matchesAt_seq.mp hm₂
  obtain ⟨lead, hlead, -, hnone⟩ := Pattern.mem_matchesAt_many.mp hm₁
  obtain ⟨w, groups, hw, haccepts, hgroups⟩ := Pattern.mem_matchesAt_group_text hm₃
  refine ⟨w, groups ++ m₄.groups, ?_, accepts_emailAddress.mp haccepts, lead, m₃.rest, ?_⟩
  · dsimp only
    rw [hnone, hgroups]
    rfl
  · rw [hlead, hw, List.append_assoc]

/-- What is stored is an address inside of the argument. -/
theorem address_of_parseEmail (h : parseEmail arg = some email) :
    Address email ∧ email <:+: arg := by
  obtain ⟨m, hsearch, hgroup⟩ := Option.bind_eq_some_iff.mp h
  obtain ⟨before, after, rfl, hm⟩ := Pattern.mem_of_search hsearch
  obtain ⟨w, groups, hgroups, haddress, hinside⟩ := address_of_mem hm
  rw [hgroups] at hgroup
  obtain rfl := Option.some.inj hgroup
  exact ⟨haddress, hinside.trans (List.suffix_append before after).isInfix⟩

/-- An argument with an address inside of it is accepted. -/
theorem parseEmail_ne_none (hw : Address w) (hinside : w <:+: arg) : parseEmail arg ≠ none := by
  obtain ⟨before, after, rfl⟩ := hinside
  have hmatch : ∃ m ∈ emailPattern.matchesAt (w ++ after), m.rest = after :=
    Pattern.exists_matchesAt.mpr ⟨w, rfl, [], w, rfl, List.forall_mem_nil _, w, [],
      (List.append_nil w).symm, accepts_emailAddress.mpr hw, List.forall_mem_nil _⟩
  obtain ⟨m, hm, -⟩ := hmatch
  have hsearch : emailPattern.search (before ++ (w ++ after)) ≠ none :=
    Pattern.search_ne_none (List.ne_nil_of_mem hm)
  rw [← List.append_assoc] at hsearch
  obtain ⟨found, hfound⟩ := Option.ne_none_iff_exists'.mp hsearch
  obtain ⟨before', after', -, hmem⟩ := Pattern.mem_of_search hfound
  obtain ⟨w', groups, hgroups, -⟩ := address_of_mem hmem
  unfold parseEmail
  rw [hfound, Option.bind_some, hgroups]
  exact Option.some_ne_none w'

/-! ## Greedy matching -/

theorem head_char {c : UInt8} {rest : Text} :
    ((char c).matchesAt (c :: rest)).head? = some ⟨rest, []⟩ :=
  Pattern.head_one (decide_eq_true rfl)

/-- None of the characters of an address is white space. -/
theorem isSpace_of_isLetter {c : UInt8} (hc : isLetter c = true) : isSpace c = false := by
  simp only [isLetter, UInt8.le_iff_toNat_le, UInt8.reduceToNat, decide_eq_true_eq] at hc
  simp only [isSpace, UInt8.le_iff_toNat_le, ← UInt8.toNat_inj, UInt8.reduceToNat,
    decide_eq_false_iff_not]
  omega

theorem isLetter_of_isSpace {c : UInt8} (hc : isSpace c = true) : isLetter c = false := by
  by_contra hletter
  rw [isSpace_of_isLetter (Bool.eq_true_of_not_eq_false hletter)] at hc
  cases hc

/-- The characters that end a repetition are no members of it, so the first match of an address is
the whole address. -/
theorem head_emailAddress (hw : Address w) {trail : Text}
    (htrail : ∀ c ∈ trail, isSpace c = true) :
    ∃ groups, (emailAddress.matchesAt (w ++ trail)).head? = some ⟨trail, groups⟩ := by
  obtain ⟨first, name, label, top, rfl, hfirst, hname, hlabel, htop⟩ := hw
  have hstop : ∀ c ∈ trail.head?, isLetter c = false := fun c hc ↦
    isLetter_of_isSpace (htrail c (List.mem_of_mem_head? hc))
  set rest := top ++ trail
  have hdot : ∀ c ∈ (46 :: rest).head?, isLabel c = false := by
    intro c hc
    obtain rfl := Option.some.inj hc
    decide
  have hat : ∀ c ∈ (64 :: (label ++ 46 :: rest)).head?, isLocal c = false := by
    intro c hc
    obtain rfl := Option.some.inj hc
    decide
  have hsplit : label ++ 46 :: rest = (label ++ [46]) ++ rest :=
    (List.append_assoc label [46] rest).symm
  have hinner := Pattern.head_seq (Pattern.head_atLeastOne hlabel.1 hlabel.2 hdot) head_char
  rw [hsplit] at hinner
  have hgroup := Pattern.head_group (n := 2) hinner
  rw [← hsplit] at hgroup
  have haddress := Pattern.head_seq (Pattern.head_one hfirst)
    (Pattern.head_seq (Pattern.head_atLeastOne hname.1 hname.2 hat)
      (Pattern.head_seq head_char
        (Pattern.head_seq hgroup (Pattern.head_atLeastOne htop.1 htop.2 hstop))))
  refine ⟨[(2, label ++ [46])], ?_⟩
  have hwhole : first :: (name ++ 64 :: (label ++ 46 :: top)) ++ trail =
      first :: (name ++ 64 :: (label ++ 46 :: rest)) := by
    simp only [rest, List.append_assoc, List.cons_append]
  rw [hwhole]
  exact haddress

/-- An address between white space is found as a whole. -/
theorem parseEmail_of_address (hw : Address w) {lead trail : Text}
    (hlead : ∀ c ∈ lead, isSpace c = true) (htrail : ∀ c ∈ trail, isSpace c = true) :
    parseEmail (lead ++ (w ++ trail)) = some w := by
  obtain ⟨groups, hhead⟩ := head_emailAddress hw htrail
  obtain ⟨first, name, label, top, hfirst, hletter, -⟩ := id hw
  have hstop : ∀ c ∈ (w ++ trail).head?, isSpace c = false := by
    intro c hc
    rw [hfirst] at hc
    obtain rfl := Option.some.inj hc
    exact isSpace_of_isLetter hletter
  have htail : ((Pattern.many isSpace).matchesAt trail).head? = some ⟨[], []⟩ := by
    have hmany : ((Pattern.many isSpace).matchesAt (trail ++ [])).head? = some ⟨[], []⟩ :=
      Pattern.head_many htrail fun c hc ↦ by cases hc
    rwa [List.append_nil] at hmany
  have hpattern := Pattern.head_seq (Pattern.head_many hlead hstop)
    (Pattern.head_seq (Pattern.head_group hhead (n := 1)) htail)
  unfold parseEmail emailPattern
  rw [Pattern.search_of_head hpattern]
  rfl

/-! ## The whole argument -/

/-- White space around the trimmed argument. -/
theorem exists_trim (arg : Text) : ∃ lead trail, arg = lead ++ (trim arg ++ trail) ∧
    (∀ c ∈ lead, isSpace c = true) ∧ ∀ c ∈ trail, isSpace c = true := by
  set rest := arg.dropWhile isSpace
  refine ⟨arg.takeWhile isSpace, (rest.reverse.takeWhile isSpace).reverse, ?_,
    fun c hc ↦ List.mem_takeWhile_imp hc, ?_⟩
  · have hrest : trim arg ++ (rest.reverse.takeWhile isSpace).reverse = rest := by
      unfold trim
      rw [← List.reverse_append, List.takeWhile_append_dropWhile, List.reverse_reverse]
    rw [hrest, List.takeWhile_append_dropWhile]
  · intro c hc
    exact List.mem_takeWhile_imp (List.mem_reverse.mp hc)

/-- What is stored is the whole argument without the white space around it, and it fits. -/
def TakesWhole (arg : Text) : Prop :=
  ∀ email, parseEmail arg = some email → email = trim arg ∧ email.length + 1 ≤ emailSize

/-- An argument is taken as a whole if and only if there is no address inside of it, or it is an
address that fits. -/
theorem takesWhole_iff (arg : Text) : TakesWhole arg ↔
    (∀ w, w <:+: arg → ¬ Address w) ∨ (Address (trim arg) ∧ (trim arg).length < emailSize) := by
  constructor
  · intro hwhole
    by_contra hnot
    obtain ⟨hsome, hbad⟩ := not_or.mp hnot
    push Not at hsome
    obtain ⟨w, hinside, haddress⟩ := hsome
    obtain ⟨email, hemail⟩ := Option.ne_none_iff_exists'.mp (parseEmail_ne_none haddress hinside)
    obtain ⟨rfl, hfits⟩ := hwhole email hemail
    exact hbad ⟨(address_of_parseEmail hemail).1, hfits⟩
  · rintro (hnone | ⟨haddress, hfits⟩) email hemail
    · obtain ⟨haddress, hinside⟩ := address_of_parseEmail hemail
      exact absurd haddress (hnone email hinside)
    · obtain ⟨lead, trail, harg, hlead, htrail⟩ := exists_trim arg
      have hfound := parseEmail_of_address haddress hlead htrail
      rw [← harg, hemail] at hfound
      obtain rfl := Option.some.inj hfound
      exact ⟨rfl, hfits⟩

/-- Of `bob@x.co.uk` only `bob@x.co` is stored. -/
theorem not_takesWhole_two_dots :
    parseEmail [98, 111, 98, 64, 120, 46, 99, 111, 46, 117, 107] =
        some [98, 111, 98, 64, 120, 46, 99, 111] ∧
      ¬ TakesWhole [98, 111, 98, 64, 120, 46, 99, 111, 46, 117, 107] := by
  have hfound : parseEmail [98, 111, 98, 64, 120, 46, 99, 111, 46, 117, 107] =
      some [98, 111, 98, 64, 120, 46, 99, 111] := by decide
  refine ⟨hfound, ?_⟩
  intro hwhole
  have hsame := (hwhole _ hfound).1
  revert hsame
  decide

end HavokMud.Login
