import HavokMud.BTree.Filling
import HavokMud.BTree.MarkedWalks
import HavokMud.BTree.PartialKeys

/-!
# Looking a command up

`AddCommand` puts a command on a tree of names and on one of numbers.  `FindCommand` takes the first
command that the search meets whose name begins with a string, and asks `BalancedBTreeFindNext`
whether there is another one.  That function passes over what earlier calls have visited.
-/

namespace HavokMud.Commands

open BinaryTree BTree SearchTree Interaction Traced

/-- A command, of which the trees hold the name and the number. -/
structure CommandDef where
  name : List UInt8
  number : ℤ
  name_nul : 0 ∉ name
deriving DecidableEq

/-- The two trees, which have a mutex each. -/
inductive CommandBTree where
  | commandName
  | commandNum
deriving DecidableEq

/-- The items of the two trees.  The item of a command is the command. -/
structure CommandItems where
  name : Heap CommandDef (List UInt8) CommandBTree
  num : Heap CommandDef ℤ CommandBTree

/-- Items as `CREATE` leaves them, with their keys. -/
def created {κ : Type} (key : CommandDef → κ) : Heap CommandDef κ CommandBTree where
  left _ := none
  right _ := none
  parent _ := none
  key := key
  btree _ := none
  visited _ := 0
  root _ := none

/-- `AddCommand`. -/
def addCommand (fuel : ℕ) (items : CommandItems) (cmd : CommandDef) :
    Traced CommandBTree CommandItems := do
  let name ← Locks.balancedBTreeAdd keyCompareString fuel items.name .commandName (some cmd)
    false true
  let num ← Locks.balancedBTreeAdd keyCompareInt fuel items.num .commandNum (some cmd) false true
  pure ⟨name, num⟩

/-- `SetupCommands`. -/
def setupCommands (fuel : ℕ) : List CommandDef → CommandItems → Traced CommandBTree CommandItems
  | [], items => pure items
  | cmd :: commands, items => do
      let items ← addCommand fuel items cmd
      setupCommands fuel commands items

/-- `InitializeCommands`. -/
def initializeCommands (fuel : ℕ) (commands : List CommandDef) :
    Traced CommandBTree CommandItems :=
  setupCommands fuel commands ⟨created CommandDef.name, created CommandDef.number⟩

/-- `FindCommand`. -/
def findCommand (fuel : ℕ) (h : Heap CommandDef (List UInt8) CommandBTree)
    (string : List UInt8) :
    Traced CommandBTree (Heap CommandDef (List UInt8) CommandBTree × Option CommandDef) := do
  let item ← Locks.balancedBTreeFind keyCompareString keyComparePartialString fuel h .commandName
    (some string) false true
  match item with
  | none => pure (h, none)
  | some item =>
      let (h, nextItem) ← Locks.balancedBTreeFindNext fuel h .commandName (some item) false
      match nextItem with
      | none => pure (h, some item)
      | some nextItem =>
          -- more than one command matches
          if keyComparePartialString string (h.key nextItem) = 0 then pure (h, none)
          else pure (h, some item)

/-- Calls of `FindCommand` one after another. -/
def findCommands (fuel : ℕ) : List (List UInt8) → Heap CommandDef (List UInt8) CommandBTree →
    Traced CommandBTree (Heap CommandDef (List UInt8) CommandBTree)
  | [], h => pure h
  | string :: strings, h => do
      let (h, _) ← findCommand fuel h string
      findCommands fuel strings h

/-- The comparison of a string with the name of a command. -/
def query (string : List UInt8) (cmd : CommandDef) : ℤ :=
  keyComparePartialString string cmd.name

/-- The command is the only one whose name begins with the string. -/
structure OnlyMatch (commands : List CommandDef) (string : List UInt8) (cmd : CommandDef) :
    Prop where
  mem : cmd ∈ commands
  startsWith : StartsWith string cmd.name
  only : ∀ other ∈ commands, StartsWith string other.name → other = cmd

/-- The tree holds the names of the commands. -/
abbrev Registered (h : Heap CommandDef (List UInt8) CommandBTree) (commands : List CommandDef)
    (t : BinaryTree CommandDef) : Prop :=
  Filled h .commandName (fun cmd ↦ fold cmd.name) commands t

/-! ## The trees -/

section Trees

variable {ι κ τ : Type} [DecidableEq ι] [DecidableEq τ] {keyCompare : κ → κ → ℤ} {fuel : ℕ}
  {btree : τ}

@[simp]
theorem result_balancedBTreeAdd (h : Heap ι κ τ) (item : ι) (locked rebalance : Bool) :
    (Locks.balancedBTreeAdd keyCompare fuel h btree (some item) locked rebalance).result =
      balancedBTreeAdd keyCompare fuel h btree (some item) rebalance := by
  simp [Locks.balancedBTreeAdd, result_bind]

/-- Whatever the comparison is, items are put on the tree without an error. -/
theorem addAll_isSome {h : Heap ι κ τ} {t : BinaryTree ι} (hrep : Represents h btree t)
    {items : List ι} (hnodup : items.Nodup) (hfresh : ∀ a ∈ items, a ∉ inorder t)
    (hfuel : items.length + t.numNodes ≤ fuel) (rebalance : Bool) :
    ∃ h', addAll keyCompare fuel btree rebalance items h = some h' := by
  induction items generalizing h t with
  | nil => exact ⟨h, rfl⟩
  | cons a items ih =>
      obtain ⟨ha, hnodup⟩ := List.nodup_cons.mp hnodup
      rw [List.length_cons] at hfuel
      obtain ⟨h₁, hrun, -, hcases⟩ := balancedBTreeAdd_cases keyCompare hrep
        (hfresh a List.mem_cons_self) (by omega : t.numNodes < fuel) rebalance
      obtain ⟨t₁, hrep₁, hmem, hsize⟩ : ∃ t₁, Represents h₁ btree t₁ ∧
          (∀ x ∈ inorder t₁, x = a ∨ x ∈ inorder t) ∧ t₁.numNodes ≤ t.numNodes + 1 := by
        rcases hcases with hrep₁ | ⟨hrep₁, -⟩
        · refine ⟨_, hrep₁, fun x hx ↦ ?_, ?_⟩
          · rwa [inorder_rebalanced, mem_inorder_insert] at hx
          · rw [← length_inorder, inorder_rebalanced, length_inorder, numNodes_insert]
        · refine ⟨_, hrep₁, fun x hx ↦ .inr ?_, ?_⟩
          · rwa [inorder_rebalanced] at hx
          · rw [← length_inorder, inorder_rebalanced, length_inorder]
            exact Nat.le_succ _
      have hfresh₁ : ∀ x ∈ items, x ∉ inorder t₁ := by
        intro x hx hmem₁
        rcases hmem x hmem₁ with rfl | hxt
        · exact ha hx
        · exact hfresh x (List.mem_cons_of_mem a hx) hxt
      obtain ⟨h', hrun'⟩ := ih hrep₁ hnodup hfresh₁ (by omega)
      refine ⟨h', ?_⟩
      rw [addAll, hrun]
      exact hrun'

end Trees

theorem setupCommands_result {fuel : ℕ} {commands : List CommandDef} {items items' : CommandItems}
    (hname : addAll keyCompareString fuel .commandName true commands items.name = some items'.name)
    (hnum : addAll keyCompareInt fuel .commandNum true commands items.num = some items'.num) :
    (setupCommands fuel commands items).result = some items' := by
  induction commands generalizing items with
  | nil =>
      obtain ⟨name, num⟩ := items
      obtain ⟨name', num'⟩ := items'
      obtain rfl := Option.some.inj hname
      obtain rfl := Option.some.inj hnum
      rfl
  | cons cmd commands ih =>
      obtain ⟨name, haddName, hname⟩ := Option.bind_eq_some_iff.mp hname
      obtain ⟨num, haddNum, hnum⟩ := Option.bind_eq_some_iff.mp hnum
      have hadd : (addCommand fuel items cmd).result = some ⟨name, num⟩ := by
        simp [addCommand, result_bind, haddName, haddNum]
      rw [setupCommands, result_bind, hadd]
      exact ih hname hnum

/-- After `InitializeCommands` the tree of names holds the names, and nothing was visited. -/
theorem initializeCommands_spec {fuel : ℕ} {commands : List CommandDef} (hnodup : commands.Nodup)
    (hfuel : commands.length ≤ fuel) :
    ∃ items t, (initializeCommands fuel commands).result = some items ∧
      items.name.key = CommandDef.name ∧ items.name.visited = (fun _ ↦ 0) ∧
      Registered items.name commands t := by
  have hroot : (created CommandDef.name).root .commandName = none := rfl
  have hempty : Represents (created CommandDef.number) .commandNum .nil := ⟨rfl, List.nodup_nil⟩
  obtain ⟨name, t, hname, hkey, hvisited, hfilled⟩ :=
    addAll_spec (follows_keyCompareString CommandDef.name_nul) hroot hnodup hfuel true
  obtain ⟨num, hnum⟩ : ∃ num, addAll keyCompareInt fuel .commandNum true commands
      (created CommandDef.number) = some num :=
    addAll_isSome hempty hnodup (by simp) hfuel true
  exact ⟨⟨name, num⟩, t, setupCommands_result hname hnum, hkey, hvisited, hfilled⟩

/-! ## One call -/

section Calls

variable {h : Heap CommandDef (List UInt8) CommandBTree} {t : BinaryTree CommandDef} {fuel : ℕ}
  {commands : List CommandDef} {string : List UInt8}

/-- With the next item the call is decided. -/
theorem findCommand_result {h' : Heap CommandDef (List UInt8) CommandBTree} {item : CommandDef}
    {next : Option CommandDef}
    (hsearch : balancedBTreeFind keyComparePartialString h fuel .commandName string =
      some (some item))
    (hnext : findNextLoop fuel checkAny fuel h item = some (h', next))
    (hkey : h'.key = CommandDef.name) :
    (findCommand fuel h string).result =
      some (h', if next.any (query string · = 0) then none else some item) := by
  have hitem : (Locks.balancedBTreeFind keyCompareString keyComparePartialString fuel h
      .commandName (some string) false true).result = some (some item) := by
    simp [Locks.balancedBTreeFind, result_bind, hsearch]
  rw [findCommand, result_bind, hitem, Option.bind_some, result_bind,
    Locks.result_balancedBTreeFindNext, hnext, Option.bind_some]
  cases next with
  | none => rfl
  | some other =>
      have hquery : keyComparePartialString string (h'.key other) = query string other := by
        rw [hkey, query]
      by_cases hmatch : query string other = 0 <;> simp [hquery, hmatch]

/-- A command that the search finds is visited, and returned unless the search is contested. -/
theorem findCommand_spec (hrep : Represents h .commandName t) (hkey : h.key = CommandDef.name)
    (hfalling : Falling (query string) (inorder t)) (hfuel : 2 * t.numNodes ≤ fuel) :
    ∃ v' found, (findCommand fuel h string).result = some (h.visit v', found) ∧
      (∀ c, v' c = 0 ↔ h.visited c = 0 ∧ find (query string) t ≠ some c) ∧
      ∀ c, found = some c ↔
        find (query string) t = some c ∧ ¬ Contested (query string) h.visited t := by
  have hsearch : balancedBTreeFind keyComparePartialString h fuel .commandName string =
      some (find (query string) t) := by
    have hprobe : probe keyComparePartialString h string = query string := by
      funext c
      rw [probe, hkey, query]
    rw [balancedBTreeFind_eq hrep (by omega), hprobe]
  cases hfind : find (query string) t with
  | none =>
      refine ⟨h.visited, none, ?_, by simp, by simp⟩
      simp [findCommand, Locks.balancedBTreeFind, result_bind, hsearch, hfind, Heap.visit]
  | some item =>
      obtain ⟨v', next, hnext, hvisited, hcontested⟩ :=
        findNextLoop_found hrep hfalling hfind hfuel
      rw [hfind] at hsearch
      refine ⟨v', _, findCommand_result hsearch hnext hkey, fun c ↦ ?_, fun c ↦ ?_⟩
      · rw [hvisited, and_comm, Ne, Ne, Option.some_inj]
        exact and_congr_right fun _ ↦ ne_comm
      · have hany : next.any (query string · = 0) = true ↔
            Contested (query string) h.visited t := by
          rw [← hcontested]
          cases next <;> simp
        by_cases hother : Contested (query string) h.visited t
        · rw [if_pos (hany.mpr hother)]
          simp [hother]
        · rw [if_neg (mt hany.mp hother)]
          simp [hother]

/-- What earlier calls have visited is what their searches found. -/
theorem findCommands_spec (hrep : Represents h .commandName t) (hkey : h.key = CommandDef.name)
    {history : List (List UInt8)}
    (hfalling : ∀ earlier ∈ history, Falling (query earlier) (inorder t))
    (hfuel : 2 * t.numNodes ≤ fuel) :
    ∃ v', (findCommands fuel history h).result = some (h.visit v') ∧
      ∀ c, v' c = 0 ↔
        h.visited c = 0 ∧ ∀ earlier ∈ history, find (query earlier) t ≠ some c := by
  induction history generalizing h with
  | nil => exact ⟨h.visited, rfl, by simp⟩
  | cons string history ih =>
      obtain ⟨hfirst, hrest⟩ := List.forall_mem_cons.mp hfalling
      obtain ⟨v₁, found, hcall, hvisited₁, -⟩ := findCommand_spec hrep hkey hfirst hfuel
      obtain ⟨v', hrun, hvisited⟩ := ih (hrep.visit v₁) hkey hrest
      refine ⟨v', ?_, fun c ↦ ?_⟩
      · rw [findCommands, result_bind, hcall]
        exact hrun
      · have hfirst : (h.visit v₁).visited c = 0 ↔
            h.visited c = 0 ∧ find (query string) t ≠ some c := hvisited₁ c
        rw [hvisited, hfirst, List.forall_mem_cons, and_assoc]

theorem Registered.falling (hregistered : Registered h commands t)
    (hkey : h.key = CommandDef.name) (hstring : 0 ∉ string) :
    Falling (query string) (inorder t) := by
  have hfalling := falling_of_fold_le (h := h) hstring
    (fun a _ ↦ by rw [hkey]; exact a.name_nul) (by rw [hkey]; exact hregistered.arranged)
  rwa [funext fun c ↦ show probe keyComparePartialString h string c = query string c by
    rw [probe, hkey, query]] at hfalling

end Calls

/-! ## All calls -/

section Lookups

variable {h : Heap CommandDef (List UInt8) CommandBTree} {t : BinaryTree CommandDef}
  {commands : List CommandDef} {string : List UInt8}

theorem query_eq_zero_iff (hstring : 0 ∉ string) (hlength : string.length < 2 ^ 31)
    (cmd : CommandDef) : query string cmd = 0 ↔ StartsWith string cmd.name :=
  keyComparePartialString_eq_zero_iff hstring cmd.name_nul (partialLength_eq hlength)

/-- The search meets a command whose name begins with the string if one is registered. -/
theorem Registered.find_eq_none_iff (hregistered : Registered h commands t)
    (hfalling : Falling (query string) (inorder t))
    (hquery : ∀ cmd, query string cmd = 0 ↔ StartsWith string cmd.name) :
    find (query string) t = none ↔ ∀ cmd ∈ commands, ¬ StartsWith string cmd.name := by
  rw [hfalling.find_eq_none_iff]
  constructor
  · intro hnone cmd hcmd hstarts
    obtain ⟨other, hother, hfold⟩ := hregistered.covers cmd hcmd
    refine hnone other hother ((hquery other).mpr ?_)
    rwa [StartsWith, hfold]
  · exact fun hnone cmd hcmd hzero ↦ hnone cmd (hregistered.mem cmd hcmd) ((hquery cmd).mp hzero)

/-- The outcome of a call is right if at most one command matches, or if the search is contested. -/
theorem Registered.outcome_iff (hregistered : Registered h commands t)
    (hfalling : Falling (query string) (inorder t))
    (hquery : ∀ cmd, query string cmd = 0 ↔ StartsWith string cmd.name) {v : CommandDef → ℕ}
    {found : Option CommandDef}
    (hfound : ∀ cmd, found = some cmd ↔
      find (query string) t = some cmd ∧ ¬ Contested (query string) v t) :
    (∀ cmd, found = some cmd ↔ OnlyMatch commands string cmd) ↔
      (∀ a ∈ commands, ∀ b ∈ commands,
          StartsWith string a.name → StartsWith string b.name → a = b) ∨
        Contested (query string) v t := by
  have hmatch : ∀ {a}, find (query string) t = some a →
      a ∈ commands ∧ StartsWith string a.name := fun hfind ↦ by
    obtain ⟨hmem, hzero⟩ := find_some hfind
    exact ⟨hregistered.mem _ hmem, (hquery _).mp hzero⟩
  constructor
  · intro hright
    by_contra hwrong
    obtain ⟨hseveral, huncontested⟩ := not_or.mp hwrong
    cases hfind : find (query string) t with
    | none =>
        have hnone := (hregistered.find_eq_none_iff hfalling hquery).mp hfind
        exact hseveral fun a ha _ _ hstarts _ ↦ absurd hstarts (hnone a ha)
    | some c =>
        have honly := (hright c).mp ((hfound c).mpr ⟨hfind, huncontested⟩)
        refine hseveral fun a ha b hb hstarts hstarts' ↦ ?_
        rw [honly.only a ha hstarts, honly.only b hb hstarts']
  · intro hcondition cmd
    rw [hfound]
    constructor
    · rintro ⟨hfind, huncontested⟩
      obtain ⟨hmem, hstarts⟩ := hmatch hfind
      have hone := hcondition.resolve_right huncontested
      exact ⟨hmem, hstarts, fun other hother hstarts' ↦ hone other hother cmd hmem hstarts' hstarts⟩
    · intro honly
      cases hfind : find (query string) t with
      | none =>
          have hnone := (hregistered.find_eq_none_iff hfalling hquery).mp hfind
          exact absurd honly.startsWith (hnone cmd honly.mem)
      | some c =>
          obtain ⟨hmem, hstarts⟩ := hmatch hfind
          refine ⟨by rw [honly.only c hmem hstarts], fun hcontested ↦ ?_⟩
          obtain ⟨b, hb, hzero, hne⟩ :=
            hcontested.exists_other hregistered.represents.nodup hfind
          have hb := honly.only b (hregistered.mem b hb) ((hquery b).mp hzero)
          exact hne (hb.trans (honly.only c hmem hstarts).symm)

end Lookups

/-- For any commands and any earlier calls, `FindCommand` gives the only command whose name begins
with the string, and NULL if there is none or more than one, exactly if no more than one matches or
the search is contested: on the right of the command that the search finds there is a match that no
earlier search has found, and the walk comes to it. -/
theorem findCommand_iff (commands : List CommandDef) (history : List (List UInt8))
    (string : List UInt8) (fuel : ℕ) (hnames : (commands.map CommandDef.name).Nodup)
    (hhistory : ∀ earlier ∈ history, 0 ∉ earlier) (hstring : 0 ∉ string)
    (hlength : string.length < 2 ^ 31) (hfuel : 2 * commands.length ≤ fuel) :
    ∃ items t h h' found, (initializeCommands fuel commands).result = some items ∧
      Represents items.name .commandName t ∧
      (findCommands fuel history items.name).result = some h ∧
      (∀ cmd, h.visited cmd ≠ 0 ↔ ∃ earlier ∈ history, find (query earlier) t = some cmd) ∧
      (findCommand fuel h string).result = some (h', found) ∧
      ((∀ cmd, found = some cmd ↔ OnlyMatch commands string cmd) ↔
        (∀ a ∈ commands, ∀ b ∈ commands,
            StartsWith string a.name → StartsWith string b.name → a = b) ∨
          Contested (query string) h.visited t) := by
  obtain ⟨items, t, hinit, hkey, hunvisited, hregistered⟩ :=
    initializeCommands_spec hnames.of_map (by omega : commands.length ≤ fuel)
  have hsize : 2 * t.numNodes ≤ fuel := by
    have hle := hregistered.numNodes_le
    omega
  obtain ⟨v, hrun, hvisited⟩ := findCommands_spec hregistered.represents hkey
    (fun earlier hmem ↦ hregistered.falling hkey (hhistory earlier hmem)) hsize
  have hfalling := hregistered.falling hkey hstring
  obtain ⟨v', found, hcall, -, hfound⟩ :=
    findCommand_spec (hregistered.represents.visit v) hkey hfalling hsize
  refine ⟨items, t, items.name.visit v, _, found, hinit, hregistered.represents, hrun, fun cmd ↦ ?_,
    hcall, hregistered.outcome_iff hfalling (query_eq_zero_iff hstring hlength) hfound⟩
  have hcmd : (items.name.visit v).visited cmd = 0 ↔
      ∀ earlier ∈ history, find (query earlier) t ≠ some cmd := by
    refine (hvisited cmd).trans (and_iff_right ?_)
    rw [hunvisited]
  rw [Ne, hcmd]
  push Not
  rfl

/-! ## The commands of the repository -/

def siteban : CommandDef :=
  ⟨[115, 105, 116, 101, 98, 97, 110], 67, by decide⟩

def shutdow : CommandDef :=
  ⟨[115, 104, 117, 116, 100, 111, 119], 68, by decide⟩

def shutdown : CommandDef :=
  ⟨[115, 104, 117, 116, 100, 111, 119, 110], 79, by decide⟩

def idea : CommandDef :=
  ⟨[105, 100, 101, 97], 80, by decide⟩

def typo : CommandDef :=
  ⟨[116, 121, 112, 111], 81, by decide⟩

def bug : CommandDef :=
  ⟨[98, 117, 103], 82, by decide⟩

/-- The table of `core_commands.c`. -/
def coreCommands : List CommandDef :=
  [siteban, shutdow, shutdown, idea, typo, bug]

theorem findCommand_siteban :
    ∃ items h h', (initializeCommands 12 coreCommands).result = some items ∧
      (findCommands 12 [[115, 104], [115]] items.name).result = some h ∧
      (findCommand 12 h [115, 105]).result = some (h', some siteban) := by
  obtain ⟨items, t, h, h', found, hinit, -, hhistory, -, hcall, hright⟩ :=
    findCommand_iff coreCommands [[115, 104], [115]] [115, 105] 12 (by decide) (by decide)
      (by decide) (by decide) le_rfl
  have honly : OnlyMatch coreCommands [115, 105] siteban :=
    ⟨by decide, by decide, by decide⟩
  have hfound : found = some siteban := (hright.mpr (.inl (by decide)) siteban).mpr honly
  exact ⟨items, h, h', hinit, hhistory, hfound ▸ hcall⟩

/-- The string `shutdow` shuts the game down, though two commands begin with it.  The string `s` is
refused at first, and shuts the game down after `si` was looked up. -/
theorem findCommand_shutdow :
    ∃ items h₁ h₂ h₃, (initializeCommands 12 coreCommands).result = some items ∧
      (StartsWith shutdow.name shutdow.name ∧ StartsWith shutdow.name shutdown.name) ∧
      (findCommand 12 items.name shutdow.name).result = some (h₁, some shutdown) ∧
      (findCommand 12 items.name [115]).result.map Prod.snd = some none ∧
      (findCommands 12 [[115, 105]] items.name).result = some h₂ ∧
      (findCommand 12 h₂ [115]).result = some (h₃, some shutdown) :=
  ⟨_, _, _, _, rfl, by decide, rfl, rfl, rfl, rfl⟩

end HavokMud.Commands
