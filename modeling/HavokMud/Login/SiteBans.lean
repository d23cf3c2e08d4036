import HavokMud.BTree.PartialKeys
import HavokMud.Commands.ArgumentRuns
import HavokMud.Keywords.Splitting

/-!
# Banned hosts

`siteban add` and `siteban rem` edit a tree of host names, and `SiteLock` asks whether a host is on
it.  All of them look a host up by `KeyComparePartialString`, so a host is taken for one that begins
with it.
-/

namespace HavokMud.Login

open BinaryTree SearchTree BTree Commands
open Keywords (Strings fold_memstrlink wordOf)
open Objects (Word)

/-! ## The functions -/

/-- The tree of banned hosts, and how many items were made for it. -/
structure BanHostTree where
  heap : Heap ℕ Word Unit
  items : ℕ

theorem nul_not_mem_nil : (0 : UInt8) ∉ ([] : List UInt8) :=
  List.not_mem_nil

/-- `BalancedBTreeCreate( NULL, BTREE_KEY_STRING )`. -/
def BanHostTree.create : BanHostTree where
  heap :=
    { left := fun _ ↦ none
      right := fun _ ↦ none
      parent := fun _ ↦ none
      key := fun _ ↦ ⟨[], nul_not_mem_nil⟩
      btree := fun _ ↦ none
      visited := fun _ ↦ 0
      root := fun _ ↦ none }
  items := 0

/-- `keyCompare` of the tree. -/
def compareHosts (l r : Word) : ℤ :=
  keyCompareString l.1 r.1

/-- `keyCompareAlt` of the tree. -/
def compareBeginnings (l r : Word) : ℤ :=
  keyComparePartialString l.1 r.1

/-- `BalancedBTreeFind` with `alternate = TRUE`. -/
def BanHostTree.find (fuel : ℕ) (host : Word) (s : BanHostTree) : Option (Option ℕ) :=
  balancedBTreeFind compareBeginnings s.heap fuel () host

/-- `SiteLock`. -/
def siteLock (fuel : ℕ) (s : BanHostTree) (site : Word) : Option Bool := do
  let item ← s.find fuel site
  some item.isSome

/-- What `do_siteban` sends. -/
inductive Output where
  | text (message : String)
  | host (name : Word)
deriving DecidableEq

/-- `banHostDepthFirst`. -/
def banHostDepthFirst (h : Heap ℕ Word Unit) : ℕ → Option ℕ → Option (List Output)
  | _, none => some []
  | 0, some _ => none
  | fuel + 1, some item => do
      let before ← banHostDepthFirst h fuel (h.left item)
      let behind ← banHostDepthFirst h fuel (h.right item)
      some (before ++ .host (h.key item) :: behind)

/-- `CREATE( BalancedBTreeItem_t )`, with the key that is set then. -/
def BanHostTree.createItem (host : Word) (s : BanHostTree) : Heap ℕ Word Unit :=
  let h := ((((s.heap.setLeft s.items none).setRight s.items none).setParent s.items none).setBtree
    s.items none).setVisited s.items 0
  { h with key := Function.update h.key s.items host }

/-- The length of a host is bad.  It is an `int`. -/
def badLength (host : Word) : Bool :=
  let length := Int32.ofNat host.1.length
  length ≤ 3 ∨ 80 ≤ length

section Siteban

variable (fuel : ℕ) (strings : Strings)

/-- `siteban add`, from the length of the host on. -/
def sitebanAdd (host : Word) (s : BanHostTree) : Option (BanHostTree × List Output) := do
  if badLength host then
    some (s, [.text "Host is too long or short, please try again\n\r"])
  else
    let item ← s.find fuel host
    if item.isSome then some (s, [.text "Host is already in database\n\r"])
    else
      let heap ← balancedBTreeAdd compareHosts fuel (s.createItem (strings.memstrlink host)) ()
        (some s.items) true
      some (⟨heap, s.items + 1⟩, [])

/-- `siteban rem`, from the length of the host on. -/
def sitebanRem (host : Word) (s : BanHostTree) : Option (BanHostTree × List Output) := do
  if badLength host then some (s, [.text "Host length is bad, please try again\n\r"])
  else if s.heap.root () = none then some (s, [.text "Banned Host list is empty\n\r"])
  else
    match ← s.find fuel host with
    | none => some (s, [.text "Host is not in database\n\r"])
    | some item =>
        let heap ← balancedBTreeRemove fuel s.heap () (some item) true
        some ({ s with heap }, [])

/-- `siteban list`. -/
def sitebanList (s : BanHostTree) : Option (BanHostTree × List Output) := do
  if s.heap.root () = none then some (s, [.text "Banned Host list is empty\n\r"])
  else
    let hosts ← banHostDepthFirst s.heap fuel (s.heap.root ())
    some (s, hosts)

/-- What `do_siteban` reads of a character: whether a player plays it, `GetMaxLevel` and
`IS_NPC`. -/
structure Character where
  hasPlayer : Bool
  maxLevel : ℤ
  isNpc : Bool

/-- `DEMIGOD`. -/
def demigod : ℤ := 54

/-- `do_siteban`, with `SITELOCK`.  Memory does not run out. -/
def doSiteban (fillWords : Heap ℕ (List UInt8) Unit) (ch : Character) (memory : Memory)
    (argument : Option ℕ) (s : BanHostTree) : Option (BanHostTree × List Output) := do
  if ch.hasPlayer = false then some (s, [])
  else if ch.maxLevel < demigod ∨ ch.isNpc = true then
    some (s, [.text "You cannot Siteban.\n\r"])
  else
    let first ← getArgument fuel fillWords memory argument
    let second ← getArgument fuel fillWords first.memory first.line
    match first.arg with
    | none => some (s, [.text "Siteban \x7badd <host> | rem <host> | list\x7d\n\r"])
    | some arg1 =>
        let word ← stringAt second.memory arg1
        if strcasecmp word [97, 100, 100] = 0 then
          match second.arg with
          | none => some (s, [.text "Siteban add <host_name>\n\r"])
          | some arg2 =>
              let host ← stringAt second.memory arg2
              sitebanAdd fuel strings (wordOf host) s
        else if strcasecmp word [114, 101, 109] = 0 then
          match second.arg with
          | none => some (s, [.text "Siteban rem <host_name>\n\r"])
          | some arg2 =>
              let host ← stringAt second.memory arg2
              sitebanRem fuel (wordOf host) s
        else if strcasecmp word [108, 105, 115, 116] = 0 then sitebanList fuel s
        else some (s, [.text "Siteban \x7badd <host> | rem <host> | list\x7d\n\r"])

end Siteban

/-! ## Sequences of commands -/

/-- The name of a host, of 4 to 79 characters. -/
structure Host where
  name : List UInt8
  long : 4 ≤ name.length
  short : name.length ≤ 79
  nul : 0 ∉ name
  space : ∀ c ∈ name, Commands.isSpace c = false

def Host.word (host : Host) : Word :=
  ⟨host.name, host.nul⟩

/-- The same name, whatever the case. -/
def Host.Same (host other : Host) : Prop :=
  fold host.name = fold other.name

instance (host other : Host) : Decidable (host.Same other) :=
  inferInstanceAs (Decidable (_ = _))

/-- What a command is for. -/
inductive SitebanRequest where
  | add
  | rem
deriving DecidableEq

def SitebanRequest.verb : SitebanRequest → List UInt8
  | .add => [97, 100, 100]
  | .rem => [114, 101, 109]

/-- A command of an authorised character, with the strings that are interned at its time. -/
structure SitebanCommand where
  ch : Character
  authorised : ch.hasPlayer = true ∧ demigod ≤ ch.maxLevel ∧ ch.isNpc = false
  request : SitebanRequest
  host : Host
  strings : Strings

/-- `add <host>` or `rem <host>`. -/
def SitebanCommand.argument (command : SitebanCommand) : List UInt8 :=
  command.request.verb ++ 32 :: command.host.name

def SitebanCommand.run (fuel : ℕ) (fillWords : Heap ℕ (List UInt8) Unit) (s : BanHostTree)
    (command : SitebanCommand) : Option BanHostTree :=
  (doSiteban fuel command.strings fillWords command.ch (command.argument ++ [0]) (some 0) s).map
    Prod.fst

/-- The list after some commands. -/
def afterCommands (fuel : ℕ) (fillWords : Heap ℕ (List UInt8) Unit)
    (commands : List SitebanCommand) : Option BanHostTree :=
  commands.foldlM (SitebanCommand.run fuel fillWords) .create

/-- The host is on the list. -/
def BanHostTree.Lists (s : BanHostTree) (host : Host) : Prop :=
  ∃ path item, follow s.heap (s.heap.root ()) path = some item ∧
    fold (s.heap.key item).1 = fold host.name

/-- The last command to add the host was not followed by one to remove it. -/
def Banned (commands : List SitebanCommand) (host : Host) : Prop :=
  ∃ before command after, commands = before ++ command :: after ∧ command.request = .add ∧
    command.host.Same host ∧
    ∀ later ∈ after, later.request = .rem → ¬ later.host.Same host

/-- The list is the set of the banned hosts at all times, and these are the hosts locked out. -/
def BansAreSet (fuel : ℕ) (fillWords : Heap ℕ (List UInt8) Unit)
    (commands : List SitebanCommand) : Prop :=
  ∀ before, before <+: commands → ∃ s, afterCommands fuel fillWords before = some s ∧
    ∀ host : Host, (s.Lists host ↔ Banned before host) ∧
      ∃ locked, siteLock fuel s host.word = some locked ∧ (locked = true ↔ s.Lists host)

/-- No fill word is banned, and no host without its beginnings. -/
def Closed (commands : List SitebanCommand) : Prop :=
  ∀ host, Banned commands host → ¬ IsFill host.name ∧
    ∀ beginning : Host, StartsWith beginning.name host.name → Banned commands beginning

/-! ## Histories -/

variable {commands : List SitebanCommand} {command : SitebanCommand} {host : Host}

theorem not_banned_nil (host : Host) : ¬ Banned [] host := by
  rintro ⟨before, command, after, hsplit, -⟩
  exact absurd hsplit (by simp)

/-- What one more command does to the banned hosts. -/
theorem banned_concat : Banned (commands ++ [command]) host ↔
    command.request = .add ∧ command.host.Same host ∨
      Banned commands host ∧ ¬ (command.request = .rem ∧ command.host.Same host) := by
  constructor
  · rintro ⟨before, first, after, hsplit, hadd, hsame, hlater⟩
    rcases List.eq_nil_or_concat' after with rfl | ⟨after, last, rfl⟩
    · obtain ⟨-, hlast⟩ := List.append_inj' hsplit rfl
      obtain rfl := List.singleton_inj.mp hlast
      exact .inl ⟨hadd, hsame⟩
    · rw [← List.cons_append, ← List.append_assoc] at hsplit
      obtain ⟨rfl, hlast⟩ := List.append_inj' hsplit rfl
      obtain rfl := List.singleton_inj.mp hlast
      refine .inr ⟨⟨before, first, after, rfl, hadd, hsame, fun later hmem ↦
        hlater later (List.mem_append_left _ hmem)⟩, fun ⟨hrem, hhost⟩ ↦ ?_⟩
      exact hlater command (List.mem_append_right _ (List.mem_singleton_self _)) hrem hhost
  · rintro (⟨hadd, hsame⟩ | ⟨⟨before, first, after, rfl, hadd, hsame, hlater⟩, hkept⟩)
    · exact ⟨commands, command, [], rfl, hadd, hsame, fun later hmem ↦ nomatch hmem⟩
    · refine ⟨before, first, after ++ [command], by simp, hadd, hsame,
        fun later hmem hrem hhost ↦ ?_⟩
      rcases List.mem_append.mp hmem with hmem | hmem
      · exact hlater later hmem hrem hhost
      · obtain rfl := List.mem_singleton.mp hmem
        exact hkept ⟨hrem, hhost⟩

theorem Banned.congr {other : Host} (h : Banned commands host) (hsame : host.Same other) :
    Banned commands other := by
  obtain ⟨before, command, after, hsplit, hadd, hhost, hlater⟩ := h
  refine ⟨before, command, after, hsplit, hadd, hhost.trans hsame, fun later hmem hrem hother ↦ ?_⟩
  exact hlater later hmem hrem (hother.trans hsame.symm)

/-! ## The tree -/

theorem weakOrder_compareHosts : WeakOrder compareHosts where
  neg_iff l r := by
    rw [compareHosts, compareHosts, keyCompareString_neg_iff l.2 r.2,
      keyCompareString_pos_iff r.2 l.2]
  trans l m r hlm hmr := by
    rw [compareHosts, keyCompareString_neg_iff l.2 m.2] at hlm
    rw [compareHosts, keyCompareString_neg_iff m.2 r.2] at hmr
    rw [compareHosts, keyCompareString_neg_iff l.2 r.2]
    exact hlm.trans hmr
  equal l m r hlm hmr := by
    rw [compareHosts, keyCompareString_eq_zero_iff l.2 m.2] at hlm
    rw [compareHosts, keyCompareString_neg_iff m.2 r.2] at hmr
    rwa [compareHosts, keyCompareString_neg_iff l.2 r.2, hlm]

/-- What holds of the tree at all times: it is in order, a new item is on it nowhere, and what is on
it is a host that is no fill word. -/
structure Kept (s : BanHostTree) (items : List ℕ) : Prop where
  holds : ∃ t, Holds compareHosts s.heap () items t
  fresh : ∀ a ∈ items, a < s.items
  host : ∀ a ∈ items, ∃ host : Host, fold (s.heap.key a).1 = fold host.name ∧ ¬ IsFill host.name

section Tree

variable {s : BanHostTree} {items : List ℕ} {fuel : ℕ}

theorem Kept.create : Kept .create [] where
  holds := ⟨_, Holds.empty compareHosts rfl⟩
  fresh _ ha := nomatch ha
  host _ ha := nomatch ha

theorem Kept.lists_iff (h : Kept s items) :
    s.Lists host ↔ ∃ a ∈ items, fold (s.heap.key a).1 = fold host.name := by
  obtain ⟨t, hholds⟩ := h.holds
  constructor
  · rintro ⟨path, a, hpath, hfold⟩
    exact ⟨a, (hholds.wellFormed.reach a).mp ⟨path, hpath⟩, hfold⟩
  · rintro ⟨a, ha, hfold⟩
    obtain ⟨path, hpath⟩ := (hholds.wellFormed.reach a).mpr ha
    exact ⟨path, a, hpath, hfold⟩

theorem not_lists_create (host : Host) : ¬ BanHostTree.create.Lists host := by
  rw [Kept.create.lists_iff]
  rintro ⟨a, ha, -⟩
  cases ha

/-- Some host on the list begins with the word. -/
def BanHostTree.Extends (s : BanHostTree) (word : Word) : Prop :=
  ∃ host : Host, s.Lists host ∧ StartsWith word.1 host.name

theorem Kept.extends_iff (h : Kept s items) (word : Word) :
    s.Extends word ↔ ∃ a ∈ items, StartsWith word.1 (s.heap.key a).1 := by
  constructor
  · rintro ⟨host, hlists, hstarts⟩
    obtain ⟨a, ha, hfold⟩ := h.lists_iff.mp hlists
    exact ⟨a, ha, by rwa [StartsWith, hfold]⟩
  · rintro ⟨a, ha, hstarts⟩
    obtain ⟨host, hfold, -⟩ := h.host a ha
    exact ⟨host, h.lists_iff.mpr ⟨a, ha, hfold⟩, by rwa [StartsWith, ← hfold]⟩

/-- A search finds an item that begins with the word, if there is one. -/
theorem Kept.find (h : Kept s items) (hfuel : items.length ≤ fuel) {word : Word}
    (hword : word.1.length < 2 ^ 31) :
    ∃ found, s.find fuel word = some found ∧ (found.isSome ↔ s.Extends word) ∧
      ∀ a, found = some a → a ∈ items ∧ StartsWith word.1 (s.heap.key a).1 := by
  obtain ⟨t, hholds⟩ := h.holds
  have hmem : ∀ a, a ∈ inorder t ↔ a ∈ items := fun a ↦ hholds.perm.mem_iff
  have hzero : ∀ a, compareBeginnings word (s.heap.key a) = 0 ↔
      StartsWith word.1 (s.heap.key a).1 := fun a ↦
    keyComparePartialString_eq_zero_iff word.2 (s.heap.key a).2 (partialLength_eq hword)
  -- the keys as plain strings
  let plain : Heap ℕ (List UInt8) Unit := ⟨s.heap.left, s.heap.right, s.heap.parent,
    fun a ↦ (s.heap.key a).1, s.heap.btree, s.heap.visited, s.heap.root⟩
  have hfalling : Falling (probe keyComparePartialString plain word.1) (inorder t) :=
    falling_keyComparePartialString word.2 (fun a _ ↦ (s.heap.key a).2) hholds.sorted
  have hfalling' : Falling (probe compareBeginnings s.heap word) (inorder t) := hfalling
  obtain ⟨found, hfind, hsome, hfound⟩ :=
    find_of_falling hholds.represents (hholds.numNodes_eq.trans_le hfuel) hfalling'
  refine ⟨found, hfind, hsome.trans ?_, fun a ha ↦ ?_⟩
  · rw [h.extends_iff]
    exact exists_congr fun a ↦ and_congr (hmem a) (hzero a)
  · obtain ⟨ha, heq⟩ := hfound a ha
    exact ⟨(hmem a).mp ha, (hzero a).mp heq⟩

theorem Kept.siteLock_iff (h : Kept s items) (hfuel : items.length ≤ fuel) (host : Host) :
    ∃ locked, siteLock fuel s host.word = some locked ∧
      (locked = true ↔ s.Extends host.word) := by
  have hshort : host.word.1.length < 2 ^ 31 := host.short.trans_lt (by decide)
  obtain ⟨found, hfind, hsome, -⟩ := h.find hfuel hshort
  exact ⟨found.isSome, by rw [siteLock, hfind]; rfl, hsome⟩

theorem badLength_eq_false {word : Word} (hlong : 4 ≤ word.1.length) (hshort : word.1.length ≤ 79) :
    badLength word = false := by
  have hlength : (Int32.ofNat word.1.length).toInt = word.1.length :=
    Int32.toInt_ofNat_of_lt (hshort.trans_lt (by decide))
  have hthree : (3 : Int32).toInt = 3 := rfl
  have heighty : (80 : Int32).toInt = 80 := rfl
  rw [badLength, decide_eq_false_iff_not, Int32.le_iff_toInt_le, Int32.le_iff_toInt_le, hlength,
    hthree, heighty]
  omega

theorem BanHostTree.extends_congr {word other : Word} (hfold : fold word.1 = fold other.1) :
    s.Extends word ↔ s.Extends other := by
  unfold BanHostTree.Extends StartsWith
  rw [hfold]

/-- No two items have the same host. -/
theorem Kept.eq_of_fold (h : Kept s items) {a b : ℕ} (ha : a ∈ items) (hb : b ∈ items)
    (hfold : fold (s.heap.key a).1 = fold (s.heap.key b).1) : a = b := by
  obtain ⟨t, hholds⟩ := h.holds
  have hdistinct : ((inorder t).map fun a ↦ fold (s.heap.key a).1).Nodup :=
    List.pairwise_map.mpr (hholds.sorted.imp fun {a b} hlt ↦
      ((keyCompareString_neg_iff (s.heap.key a).2 (s.heap.key b).2).mp hlt).ne)
  exact List.inj_on_of_nodup_map hdistinct (hholds.perm.mem_iff.mpr ha)
    (hholds.perm.mem_iff.mpr hb) hfold

theorem Kept.nodup (h : Kept s items) : items.Nodup := by
  obtain ⟨t, hholds⟩ := h.holds
  exact hholds.perm.nodup_iff.mp hholds.represents.nodup

/-- A new item is not on the tree yet. -/
theorem Kept.createItem (h : Kept s items) (word : Word) :
    ∃ t, Holds compareHosts (s.createItem word) () items t := by
  obtain ⟨t, hholds⟩ := h.holds
  have hne : ∀ a ∈ inorder t, a ≠ s.items := fun a ha ↦
    (h.fresh a (hholds.perm.mem_iff.mp ha)).ne
  refine ⟨t, ⟨?_, hholds.represents.nodup⟩, hholds.perm, ?_, ?_⟩
  · refine hholds.represents.links.congr ?_ ?_ ?_ <;>
      exact fun a ha ↦ by simp [BanHostTree.createItem, hne a ha]
  · refine hholds.sorted.imp_of_mem fun {a b} ha hb hlt ↦ ?_
    simpa [BanHostTree.createItem, Function.update_of_ne (hne a ha),
      Function.update_of_ne (hne b hb)] using hlt
  · intro a ha
    simpa [BanHostTree.createItem, hne a ha] using hholds.owner a ha

/-- A new item puts its host on the list. -/
theorem Kept.push (h : Kept s items) {h' : Heap ℕ Word Unit} {word : Word}
    (hkey : h'.key = Function.update s.heap.key s.items word)
    (hholds : ∃ t, Holds compareHosts h' () (s.items :: items) t)
    (hword : fold word.1 = fold host.name) (hfill : ¬ IsFill host.name) :
    Kept ⟨h', s.items + 1⟩ (s.items :: items) ∧ ∀ other,
      BanHostTree.Lists ⟨h', s.items + 1⟩ other ↔ host.Same other ∨ s.Lists other := by
  have hold : ∀ a ∈ items, h'.key a = s.heap.key a := fun a ha ↦ by
    rw [hkey, Function.update_of_ne (h.fresh a ha).ne]
  have hnew : fold (h'.key s.items).1 = fold host.name := by
    rw [hkey, Function.update_self, hword]
  have hkept : Kept ⟨h', s.items + 1⟩ (s.items :: items) := by
    refine ⟨hholds, ?_, ?_⟩
    · exact List.forall_mem_cons.mpr ⟨Nat.lt_succ_self _, fun a ha ↦
        (h.fresh a ha).trans (Nat.lt_succ_self _)⟩
    · refine List.forall_mem_cons.mpr ⟨⟨host, hnew, hfill⟩, fun a ha ↦ ?_⟩
      rw [hold a ha]
      exact h.host a ha
  refine ⟨hkept, fun other ↦ ?_⟩
  rw [hkept.lists_iff, h.lists_iff]
  simp only [List.mem_cons, or_and_right, exists_or, exists_eq_left]
  apply or_congr
  · rw [hnew, Host.Same]
  · refine exists_congr fun a ↦ and_congr_right fun ha ↦ ?_
    rw [hold a ha]

/-- An item that goes takes its host off the list. -/
theorem Kept.erase (h : Kept s items) {h' : Heap ℕ Word Unit} {a : ℕ} (ha : a ∈ items)
    (hkey : h'.key = s.heap.key) (hholds : ∃ t, Holds compareHosts h' () (items.erase a) t)
    {victim : Host} (hvictim : fold (s.heap.key a).1 = fold victim.name) :
    Kept { s with heap := h' } (items.erase a) ∧ ∀ other,
      BanHostTree.Lists { s with heap := h' } other ↔ s.Lists other ∧ ¬ victim.Same other := by
  have hkept : Kept { s with heap := h' } (items.erase a) := by
    refine ⟨hholds, fun b hb ↦ h.fresh b (List.mem_of_mem_erase hb), fun b hb ↦ ?_⟩
    rw [hkey]
    exact h.host b (List.mem_of_mem_erase hb)
  refine ⟨hkept, fun other ↦ ?_⟩
  rw [hkept.lists_iff, h.lists_iff]
  simp only [h.nodup.mem_erase_iff, hkey]
  constructor
  · rintro ⟨b, ⟨hne, hb⟩, hfold⟩
    refine ⟨⟨b, hb, hfold⟩, fun hsame ↦ hne (h.eq_of_fold hb ha ?_)⟩
    rw [hfold, hvictim, hsame]
  · rintro ⟨⟨b, hb, hfold⟩, hother⟩
    refine ⟨b, ⟨fun heq ↦ hother ?_, hb⟩, hfold⟩
    rw [Host.Same, ← hvictim, ← heq, hfold]

/-- `siteban add` puts a host on the list unless one on the list begins with it. -/
theorem Kept.add (h : Kept s items) (hfuel : items.length < fuel) {word : Word}
    (hword : fold word.1 = fold host.name) (hbad : badLength word = false)
    (hshort : word.1.length < 2 ^ 31) (hfill : ¬ IsFill host.name) (strings : Strings) :
    ∃ s' items' sent, sitebanAdd fuel strings word s = some (s', sent) ∧ Kept s' items' ∧
      items'.length ≤ items.length + 1 ∧
      (s.Extends word ∧ s' = s ∨
        ¬ s.Extends word ∧ ∀ other, s'.Lists other ↔ host.Same other ∨ s.Lists other) := by
  obtain ⟨found, hfind, hsome, -⟩ := h.find hfuel.le hshort
  cases found with
  | some a =>
      refine ⟨s, items, [.text "Host is already in database\n\r"], ?_, h, by omega,
        .inl ⟨hsome.mp rfl, rfl⟩⟩
      rw [sitebanAdd, hbad, hfind]
      rfl
  | none =>
      have hnone : ¬ s.Extends word := fun hextends ↦ absurd (hsome.mpr hextends) (by simp)
      have hitem : s.items ∉ items := fun hmem ↦ lt_irrefl _ (h.fresh _ hmem)
      have hlinked : fold (strings.memstrlink word).1 = fold word.1 := fold_memstrlink strings word
      obtain ⟨t, hholds⟩ := h.createItem (strings.memstrlink word)
      have hkey : (s.createItem (strings.memstrlink word)).key =
          Function.update s.heap.key s.items (strings.memstrlink word) := rfl
      have hdiffers : ∀ b ∈ items, compareHosts
          ((s.createItem (strings.memstrlink word)).key s.items)
          ((s.createItem (strings.memstrlink word)).key b) ≠ 0 := by
        intro b hb hzero
        rw [hkey, Function.update_self, Function.update_of_ne (h.fresh b hb).ne] at hzero
        have hfold := (keyCompareString_eq_zero_iff (strings.memstrlink word).2
          (s.heap.key b).2).mp hzero
        rw [hlinked] at hfold
        exact hnone ((h.extends_iff word).mpr ⟨b, hb, by rw [StartsWith, hfold]⟩)
      obtain ⟨h', hrun, hframe, hholds'⟩ :=
        hholds.add_fresh weakOrder_compareHosts hitem hdiffers hfuel true
      obtain ⟨hkept, hlists⟩ :=
        h.push (hframe.key.trans hkey) ⟨_, hholds'⟩ (hlinked.trans hword) hfill
      refine ⟨_, _, [], ?_, hkept, le_rfl, .inr ⟨hnone, hlists⟩⟩
      rw [sitebanAdd, hbad, hfind, if_neg Bool.false_ne_true, Option.bind_eq_bind,
        Option.bind_some, if_neg (by simp), hrun]
      rfl

/-- `siteban rem` takes a host off the list that begins with the one it is given. -/
theorem Kept.rem (h : Kept s items) (hfuel : items.length ≤ fuel) {word : Word}
    (hbad : badLength word = false) (hshort : word.1.length < 2 ^ 31) :
    ∃ s' items' sent, sitebanRem fuel word s = some (s', sent) ∧ Kept s' items' ∧
      items'.length ≤ items.length ∧
      (¬ s.Extends word ∧ s' = s ∨
        ∃ victim : Host, s.Lists victim ∧ StartsWith word.1 victim.name ∧
          ∀ other, s'.Lists other ↔ s.Lists other ∧ ¬ victim.Same other) := by
  obtain ⟨found, hfind, hsome, hfound⟩ := h.find hfuel hshort
  by_cases hroot : s.heap.root () = none
  · have hnone : ¬ s.Extends word := by
      rintro ⟨host, ⟨path, a, hpath, -⟩, -⟩
      rw [hroot, follow_none] at hpath
      cases hpath
    refine ⟨s, items, [.text "Banned Host list is empty\n\r"], ?_, h, le_rfl, .inl ⟨hnone, rfl⟩⟩
    rw [sitebanRem, hbad, if_neg Bool.false_ne_true, if_pos hroot]
  cases found with
  | none =>
      have hnone : ¬ s.Extends word := fun hextends ↦ absurd (hsome.mpr hextends) (by simp)
      refine ⟨s, items, [.text "Host is not in database\n\r"], ?_, h, le_rfl,
        .inl ⟨hnone, rfl⟩⟩
      rw [sitebanRem, hbad, if_neg Bool.false_ne_true, if_neg hroot, hfind]
      rfl
  | some a =>
      obtain ⟨ha, hstarts⟩ := hfound a rfl
      obtain ⟨victim, hvictim, -⟩ := h.host a ha
      obtain ⟨t, hholds⟩ := h.holds
      obtain ⟨h', hrun, hkey, hholds'⟩ := hholds.remove ha hfuel true
      obtain ⟨hkept, hlists⟩ := h.erase ha hkey ⟨_, hholds'⟩ hvictim
      refine ⟨_, _, [], ?_, hkept, List.length_erase_le, .inr ⟨victim,
        h.lists_iff.mpr ⟨a, ha, hvictim⟩, by rwa [StartsWith, ← hvictim], hlists⟩⟩
      rw [sitebanRem, hbad, if_neg Bool.false_ne_true, if_neg hroot, hfind, Option.bind_eq_bind,
        Option.bind_some]
      dsimp only
      rw [hrun]
      rfl

end Tree

/-! ## The arguments -/

section Arguments

variable {fuel : ℕ} {fillWords : Heap ℕ (List UInt8) Unit} {s : BanHostTree}

theorem SitebanRequest.verb_word (request : SitebanRequest) :
    request.verb ≠ [] ∧ 0 ∉ request.verb ∧ (∀ c ∈ request.verb, Commands.isSpace c = false) ∧
      request.verb.length = 3 ∧ lowerText request.verb = request.verb ∧ ¬ IsFill request.verb := by
  refine ⟨?_, ?_, ?_, ?_, ?_, ?_⟩
  · cases request <;> decide
  · cases request <;> decide
  · cases request <;> simp [SitebanRequest.verb, Commands.isSpace]
  · cases request <;> rfl
  · cases request <;> rfl
  · cases request <;> decide

theorem Host.ne_nil (host : Host) : host.name ≠ [] :=
  List.ne_nil_of_length_pos (Nat.zero_lt_of_lt host.long)

theorem plain_argument (command : SitebanCommand) : Plain command.argument := by
  obtain ⟨-, hnul, hspace, -⟩ := command.request.verb_word
  refine ⟨?_, fun c hc hblank ↦ ?_⟩
  · simpa [SitebanCommand.argument] using ⟨hnul, command.host.nul⟩
  · rcases List.mem_append.mp hc with hc | hc
    · rw [hspace c hc] at hblank
      cases hblank
    · rcases List.mem_cons.mp hc with rfl | hc
      · rfl
      · rw [command.host.space c hc] at hblank
        cases hblank

/-- The verb is a word, and the host another one unless it is a fill word. -/
theorem keptWords_argument (command : SitebanCommand) : keptWords true command.argument =
    command.request.verb :: if IsFill command.host.name then [] else [command.host.name] := by
  obtain ⟨hne, -, hspace, -, -, hfill⟩ := command.request.verb_word
  have hblank : ∀ word : List UInt8, (∀ c ∈ word, Commands.isSpace c = false) →
      ∀ c ∈ word, (c == 32) = false := by
    intro word hword c hc
    rw [beq_eq_false_iff_ne]
    rintro rfl
    exact absurd (hword 32 hc) (by decide)
  have hwords : words command.argument = [command.request.verb, command.host.name] := by
    rw [words, SitebanCommand.argument, Sequence.runs_run_append hne (hblank _ hspace) rfl,
      Sequence.runs_run command.host.ne_nil (hblank _ command.host.space)]
  rw [keptWords, hwords]
  by_cases hhost : IsFill command.host.name <;> simp [hfill, hhost]

/-- What is left of the arguments of a command: the verb, and the host unless it is a fill word. -/
theorem getArgument_argument (htells : Tells fuel fillWords) (hfuel : 84 ≤ fuel)
    (command : SitebanCommand) :
    ∃ first second arg1, getArgument fuel fillWords (command.argument ++ [0]) (some 0) =
        some first ∧ getArgument fuel fillWords first.memory first.line = some second ∧
      first.arg = some arg1 ∧ stringAt second.memory arg1 = some command.request.verb ∧
      if IsFill command.host.name then second.arg = none
      else ∃ arg2, second.arg = some arg2 ∧
        stringAt second.memory arg2 = some (lowerText command.host.name) := by
  obtain ⟨-, hnul, -, hlength, hlower, -⟩ := command.request.verb_word
  have hshort := command.host.short
  have hless : command.argument.length < fuel := by
    simp only [SitebanCommand.argument, List.length_append, List.length_cons, hlength]
    omega
  have hleft : Left (command.argument ++ [0]) (some 0) [] command.argument :=
    ⟨plain_argument command, by simp, by simp, by simp⟩
  obtain ⟨first, hfirst, hyields⟩ := getArgumentCommon_spec htells true hleft hless
  obtain ⟨start, line, harg, -, -, hleft', hshorter, hrest⟩ :=
    hyields.next _ _ (keptWords_argument command)
  obtain ⟨second, hsecond, hyields'⟩ :=
    getArgumentCommon_spec htells true hleft' (hshorter.trans hless)
  rw [hlower] at hyields'
  refine ⟨first, second, start.length, hfirst, hsecond, harg,
    stringAt_of_prefix hnul hyields'.past_prefix, ?_⟩
  split_ifs at hrest ⊢ with hfill
  · exact (hyields'.last hrest).1
  · obtain ⟨start', line', harg', -, hnul', hleft'', -⟩ := hyields'.next _ _ hrest
    refine ⟨start'.length, harg', stringAt_of_prefix (nul_not_mem_lowerText hnul') ?_⟩
    rw [hleft''.memory_eq]
    exact List.prefix_append _ _

/-- The host as the command passes it on. -/
def Host.lowered (host : Host) : Word :=
  ⟨lowerText host.name, nul_not_mem_lowerText host.nul⟩

/-- A command does what it is for, unless its host is passed over as a fill word. -/
theorem run_eq (htells : Tells fuel fillWords) (hfuel : 84 ≤ fuel) (command : SitebanCommand) :
    command.run fuel fillWords s =
      if IsFill command.host.name then some s
      else
        (match command.request with
          | .add => sitebanAdd fuel command.strings command.host.lowered s
          | .rem => sitebanRem fuel command.host.lowered s).map Prod.fst := by
  obtain ⟨first, second, arg1, hfirst, hsecond, harg, hverb, hhost⟩ :=
    getArgument_argument htells hfuel command
  obtain ⟨hplayer, hlevel, hnpc⟩ := command.authorised
  have hdenied : ¬ (command.ch.maxLevel < demigod ∨ command.ch.isNpc = true) := by
    rw [hnpc]
    simpa using hlevel
  rw [SitebanCommand.run, doSiteban, hplayer, if_neg (by decide), if_neg hdenied, hfirst,
    Option.bind_eq_bind, Option.bind_some, hsecond, Option.bind_eq_bind, Option.bind_some, harg]
  dsimp only
  rw [hverb, Option.bind_some]
  have hword : wordOf (lowerText command.host.name) = command.host.lowered :=
    Keywords.wordOf_eq (nul_not_mem_lowerText command.host.nul)
  have hrem : ¬ strcasecmp SitebanRequest.rem.verb [97, 100, 100] = 0 := by decide
  by_cases hfill : IsFill command.host.name
  · rw [if_pos hfill] at hhost ⊢
    rw [hhost]
    cases command.request with
    | add => rw [if_pos (by decide)]; rfl
    | rem => rw [if_neg hrem, if_pos (by decide)]; rfl
  · rw [if_neg hfill] at hhost ⊢
    obtain ⟨arg2, harg2, hstring⟩ := hhost
    rw [harg2]
    dsimp only
    rw [hstring, Option.bind_some, hword, Option.bind_some]
    cases command.request with
    | add => rw [if_pos (by decide)]
    | rem => rw [if_neg hrem, if_pos (by decide), hword]

end Arguments

/-! ## Runs -/

/-- What a command does to the list. -/
inductive Effect (command : SitebanCommand) (s s' : BanHostTree) : Prop
  | filler (hfill : IsFill command.host.name) (heq : s' = s)
  | refused (hadd : command.request = .add) (hextends : s.Extends command.host.word) (heq : s' = s)
  | added (hadd : command.request = .add) (hnone : ¬ s.Extends command.host.word)
      (hlists : ∀ other, s'.Lists other ↔ command.host.Same other ∨ s.Lists other)
  | missed (hrem : command.request = .rem) (hnone : ¬ s.Extends command.host.word) (heq : s' = s)
  | removed (hrem : command.request = .rem) (victim : Host) (hvictim : s.Lists victim)
      (hstarts : StartsWith command.host.name victim.name)
      (hlists : ∀ other, s'.Lists other ↔ s.Lists other ∧ ¬ victim.Same other)

section Runs

variable {fuel : ℕ} {fillWords : Heap ℕ (List UInt8) Unit} {s : BanHostTree} {items : List ℕ}

theorem Kept.run (h : Kept s items) (htells : Tells fuel fillWords)
    (hfuel : 84 + items.length ≤ fuel) (command : SitebanCommand) :
    ∃ s' items', command.run fuel fillWords s = some s' ∧ Kept s' items' ∧
      items'.length ≤ items.length + 1 ∧ Effect command s s' := by
  rw [run_eq htells (by omega)]
  split_ifs with hfill
  · exact ⟨s, items, rfl, h, Nat.le_succ _, .filler hfill rfl⟩
  · have hfold : fold command.host.lowered.1 = fold command.host.word.1 := fold_lowerText _
    have hlength : command.host.lowered.1.length = command.host.name.length := List.length_map _
    have hlong := command.host.long
    have hshort := command.host.short
    have hbad : badLength command.host.lowered = false :=
      badLength_eq_false (by omega) (by omega)
    have hextends := s.extends_congr hfold
    have hroom : items.length < fuel := by omega
    cases hrequest : command.request with
    | add =>
        obtain ⟨s', items', sent, hrun, hkept, hlen, heffect⟩ :=
          h.add hroom hfold hbad (by omega) hfill command.strings
        refine ⟨s', items', by rw [hrun]; rfl, hkept, hlen, ?_⟩
        rw [hextends] at heffect
        rcases heffect with ⟨hextends, rfl⟩ | ⟨hnone, hlists⟩
        · exact .refused hrequest hextends rfl
        · exact .added hrequest hnone hlists
    | rem =>
        obtain ⟨s', items', sent, hrun, hkept, hlen, heffect⟩ :=
          h.rem hroom.le hbad (by omega)
        refine ⟨s', items', by rw [hrun]; rfl, hkept, hlen.trans (Nat.le_succ _), ?_⟩
        rw [hextends] at heffect
        rcases heffect with ⟨hnone, rfl⟩ | ⟨victim, hvictim, hstarts, hlists⟩
        · exact .missed hrequest hnone rfl
        · refine .removed hrequest victim hvictim ?_ hlists
          rwa [StartsWith, hfold] at hstarts

/-- Under the condition a command changes the list as it changes the banned hosts. -/
theorem Effect.lists_iff {s' : BanHostTree} (h : Effect command s s')
    (hlists : ∀ host, s.Lists host ↔ Banned commands host) (hclosed : Closed commands)
    (hclosed' : Closed (commands ++ [command])) (host : Host) :
    s'.Lists host ↔ Banned (commands ++ [command]) host := by
  have hself : command.host.Same command.host := rfl
  rw [banned_concat]
  cases h with
  | filler hfill heq =>
      subst heq
      rw [hlists]
      cases hrequest : command.request with
      | add =>
          have hbanned : Banned (commands ++ [command]) command.host :=
            banned_concat.mpr (.inl ⟨hrequest, hself⟩)
          exact absurd hfill (hclosed' _ hbanned).1
      | rem =>
          have hother : Banned commands host → ¬ command.host.Same host := fun hbanned hsame ↦
            (hclosed _ (hbanned.congr hsame.symm)).1 hfill
          simpa using hother
  | refused hadd hextends heq =>
      subst heq
      obtain ⟨longer, hlonger, hstarts⟩ := hextends
      have hbanned : Banned commands command.host :=
        (hclosed _ ((hlists longer).mp hlonger)).2 command.host hstarts
      rw [hlists]
      simpa [hadd] using fun hsame ↦ hbanned.congr hsame
  | added hadd hnone hlists' =>
      rw [hlists', hlists]
      simp [hadd]
  | missed hrem hnone heq =>
      subst heq
      have hother : Banned commands host → ¬ command.host.Same host := by
        intro hbanned hsame
        refine hnone ⟨host, (hlists host).mpr hbanned, ?_⟩
        rw [StartsWith, Host.word, hsame]
      rw [hlists]
      simpa [hrem] using hother
  | removed hrem victim hvictim hstarts hlists' =>
      have hsame : command.host.Same victim := by
        by_contra hdiffers
        have hbanned : Banned (commands ++ [command]) victim :=
          banned_concat.mpr (.inr ⟨(hlists victim).mp hvictim, fun h ↦ hdiffers h.2⟩)
        have hbeginning := (hclosed' _ hbanned).2 command.host hstarts
        rcases banned_concat.mp hbeginning with ⟨hadd, -⟩ | ⟨-, hkept⟩
        · rw [hrem] at hadd
          cases hadd
        · exact hkept ⟨hrem, hself⟩
      have hvictims : victim.Same host ↔ command.host.Same host := by
        rw [Host.Same, Host.Same, ← hsame]
      rw [hlists', hlists, hvictims]
      simp [hrem]

theorem afterCommands_concat (commands : List SitebanCommand) (command : SitebanCommand) :
    afterCommands fuel fillWords (commands ++ [command]) =
      (afterCommands fuel fillWords commands).bind fun s ↦ command.run fuel fillWords s := by
  simp [afterCommands, List.foldlM_append]

/-- The tree is kept through all commands. -/
theorem afterCommands_kept (htells : Tells fuel fillWords) {commands : List SitebanCommand}
    (hfuel : 84 + commands.length ≤ fuel) :
    ∃ s items, afterCommands fuel fillWords commands = some s ∧ Kept s items ∧
      items.length ≤ commands.length ∧
      ((∀ before, before <+: commands → Closed before) →
        ∀ host, s.Lists host ↔ Banned commands host) := by
  induction commands using List.reverseRecOn with
  | nil =>
      exact ⟨.create, [], rfl, .create, le_rfl, fun _ host ↦
        iff_of_false (not_lists_create host) (not_banned_nil host)⟩
  | append_singleton commands command ih =>
      rw [List.length_append, List.length_singleton] at hfuel
      obtain ⟨s, items, hrun, hkept, hlen, hlists⟩ := ih (by omega)
      obtain ⟨s', items', hrun', hkept', hlen', heffect⟩ :=
        hkept.run htells (by omega) command
      refine ⟨s', items', by rw [afterCommands_concat, hrun]; exact hrun', hkept', ?_, ?_⟩
      · rw [List.length_append, List.length_singleton]
        omega
      · intro hclosed
        have hbefore := hlists fun before h ↦ hclosed before (h.trans (List.prefix_append _ _))
        exact heffect.lists_iff hbefore (hclosed _ (List.prefix_append _ _))
          (hclosed _ List.prefix_rfl)

theorem isFill_of_fold {word other : List UInt8} (h : IsFill word)
    (hfold : fold word = fold other) : IsFill other := by
  rwa [IsFill, ← lowerText_of_fold hfold]

/-- A list that is the set of the banned hosts is closed. -/
theorem BansAreSet.closed (htells : Tells fuel fillWords) {commands : List SitebanCommand}
    (hfuel : 84 + commands.length ≤ fuel) (h : BansAreSet fuel fillWords commands)
    {before : List SitebanCommand} (hbefore : before <+: commands) : Closed before := by
  have hroom : 84 + before.length ≤ fuel := (Nat.add_le_add_left hbefore.length_le 84).trans hfuel
  obtain ⟨s, items, hrun, hkept, hlen, -⟩ := afterCommands_kept htells hroom
  have hitems : items.length ≤ fuel := by omega
  obtain ⟨s', hrun', hset⟩ := h before hbefore
  obtain rfl := Option.some.inj (hrun.symm.trans hrun')
  intro host hbanned
  have hlists := (hset host).1.mpr hbanned
  constructor
  · intro hfill
    obtain ⟨a, ha, hfold⟩ := hkept.lists_iff.mp hlists
    obtain ⟨other, hother, hkeep⟩ := hkept.host a ha
    exact hkeep (isFill_of_fold hfill (hfold.symm.trans hother))
  · intro beginning hstarts
    obtain ⟨hiff, locked, hlocked, hlock⟩ := hset beginning
    obtain ⟨locked', hlocked', hextends⟩ := hkept.siteLock_iff hitems beginning
    obtain rfl := Option.some.inj (hlocked.symm.trans hlocked')
    exact hiff.mp (hlock.mp (hextends.mpr ⟨host, hlists, hstarts⟩))

/-- The bans are a set as long as no fill word is banned, and no host without every beginning of it
that is long enough. -/
theorem bansAreSet_iff (commands : List SitebanCommand) (hfuel : 84 + commands.length ≤ fuel) :
    ∃ fillWords, initializeFillWords fuel = some fillWords ∧
      (BansAreSet fuel fillWords commands ↔ ∀ before, before <+: commands → Closed before) := by
  have htable : 8 ≤ fuel := by omega
  obtain ⟨fillWords, hinit, hfill⟩ := initializeFillWords_spec htable
  have htells : Tells fuel fillWords := fun word hnul hspace ↦
    hfill word hnul hspace fuel (by omega)
  refine ⟨fillWords, hinit, fun h before hbefore ↦ h.closed htells hfuel hbefore, ?_⟩
  intro hclosed before hbefore
  have hroom : 84 + before.length ≤ fuel := (Nat.add_le_add_left hbefore.length_le 84).trans hfuel
  obtain ⟨s, items, hrun, hkept, hlen, hlists⟩ := afterCommands_kept htells hroom
  have hitems : items.length ≤ fuel := by omega
  have hset := hlists fun first hfirst ↦ hclosed first (hfirst.trans hbefore)
  refine ⟨s, hrun, fun host ↦ ⟨hset host, ?_⟩⟩
  obtain ⟨locked, hlocked, hextends⟩ := hkept.siteLock_iff hitems host
  refine ⟨locked, hlocked, hextends.trans ⟨?_, fun h ↦ ⟨host, h, ?_⟩⟩⟩
  · rintro ⟨longer, hlonger, hstarts⟩
    have hbanned : Banned before longer := (hset longer).mp hlonger
    exact (hset host).mpr ((hclosed before hbefore longer hbanned).2 host hstarts)
  · exact List.prefix_rfl

end Runs

/-! ## Two hosts -/

/-- `evil`. -/
def evil : Host where
  name := [101, 118, 105, 108]
  long := by decide
  short := by decide
  nul := by decide
  space := by simp [Commands.isSpace]

/-- `evil.com`. -/
def evilCom : Host where
  name := [101, 118, 105, 108, 46, 99, 111, 109]
  long := by decide
  short := by decide
  nul := by decide
  space := by simp [Commands.isSpace]

theorem nodup_noTexts : (([] : List Word).map fun text ↦ fold text.1).Nodup :=
  List.nodup_nil

/-- `siteban add` by a character of level 60, with no string interned. -/
def addHost (host : Host) : SitebanCommand where
  ch := ⟨true, 60, false⟩
  authorised := by decide
  request := .add
  host := host
  strings := ⟨[], nodup_noTexts⟩

theorem banned_addHost {added host : Host} : Banned [addHost added] host ↔ added.Same host := by
  have hrequest : (addHost added).request = .add := rfl
  calc Banned [addHost added] host
      ↔ Banned ([] ++ [addHost added]) host := Iff.rfl
    _ ↔ added.Same host := by
        rw [banned_concat, and_iff_right hrequest, or_iff_left fun h ↦ not_banned_nil host h.1]
        rfl

/-- A host of four letters has no shorter beginning that is a host. -/
theorem bansAreSet_evil : ∃ fillWords, initializeFillWords 85 = some fillWords ∧
    BansAreSet 85 fillWords [addHost evil] := by
  obtain ⟨fillWords, hinit, hiff⟩ := bansAreSet_iff [addHost evil] (by decide : 84 + 1 ≤ 85)
  refine ⟨fillWords, hinit, hiff.mpr fun before hbefore host hbanned ↦ ?_⟩
  rw [← List.nil_append [addHost evil], List.prefix_concat_iff] at hbefore
  rcases hbefore with rfl | hnil
  · have hsame : evil.Same host := banned_addHost.mp hbanned
    constructor
    · intro hfill
      exact absurd (isFill_of_fold hfill hsame.symm) (by decide)
    · intro beginning hstarts
      rw [StartsWith, ← hsame] at hstarts
      have hlength : (fold evil.name).length ≤ (fold beginning.name).length := by
        rw [fold, fold, List.length_map, List.length_map]
        exact beginning.long
      exact banned_addHost.mpr (hstarts.eq_of_length_le hlength).symm
  · rw [List.prefix_nil.mp hnil] at hbanned
    exact absurd hbanned (not_banned_nil host)

/-- With `evil.com` banned, `evil` is locked out, but not on the list. -/
theorem siteLock_evil : ∃ fillWords s, initializeFillWords 85 = some fillWords ∧
    afterCommands 85 fillWords [addHost evilCom] = some s ∧ s.Lists evilCom ∧ ¬ s.Lists evil ∧
    siteLock 85 s evil.word = some true ∧ ¬ BansAreSet 85 fillWords [addHost evilCom] := by
  obtain ⟨fillWords, hinit, hfill⟩ := initializeFillWords_spec (by decide : 8 ≤ 85)
  have htells : Tells 85 fillWords := fun word hnul hspace ↦
    hfill word hnul hspace 85 (by decide)
  obtain ⟨s, items, hrun, hkept, hlen, heffect⟩ :=
    Kept.create.run htells (by decide) (addHost evilCom)
  have hlists (host : Host) : s.Lists host ↔ evilCom.Same host := by
    cases heffect with
    | filler hfill heq => exact absurd hfill (by decide)
    | refused hadd hextends heq =>
        obtain ⟨other, hother, -⟩ := hextends
        exact absurd hother (not_lists_create other)
    | added hadd hnone hlists =>
        rw [hlists, or_iff_left (not_lists_create host)]
        rfl
    | missed hrem hnone heq => cases hrem
    | removed hrem victim hvictim hstarts hlists => cases hrem
  have hevil : ¬ s.Lists evil := fun h ↦ absurd ((hlists evil).mp h) (by decide)
  have hevilCom : s.Lists evilCom := (hlists evilCom).mpr rfl
  have hfew : items.length ≤ 85 := hlen.trans (by decide)
  obtain ⟨locked, hlocked, hextends⟩ := hkept.siteLock_iff hfew evil
  obtain rfl : locked = true := hextends.mpr ⟨evilCom, hevilCom, by decide⟩
  have hafter : afterCommands 85 fillWords [addHost evilCom] = some s :=
    (afterCommands_concat [] (addHost evilCom)).trans hrun
  refine ⟨fillWords, s, hinit, hafter, hevilCom, hevil, hlocked, fun h ↦ ?_⟩
  obtain ⟨s', hafter', hset⟩ := h _ List.prefix_rfl
  obtain rfl := Option.some.inj (hafter.symm.trans hafter')
  obtain ⟨-, locked, hlocked', hlock⟩ := hset evil
  rw [hlocked] at hlocked'
  exact hevil (hlock.mp (Option.some.inj hlocked').symm)

end HavokMud.Login
