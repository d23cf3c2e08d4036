import HavokMud.BTree.InOrder
import HavokMud.Objects.Keywords

/-!
# The type index

`objectTypeFindFirst` and `objectTypeFindNext` walk the tree under one type.  An object that is read
is put there and is found, but `objectTypeTreeRemove` looks for the type in `objectKeywordTree` and
so never takes an object away.
-/

namespace HavokMud.Objects

open BinaryTree SearchTree BTree

/-! ## What is found -/

section Finding

variable (garbage : Key → Key → ℤ) {fuel : ℕ} {s : Indexes} {tree : Tree → BinaryTree Item}
  {v : Item → ℕ} {n : ℕ} {flag : ItemType} {obj : Address} {objs after : List Address}

/-- The state with other counts. -/
def Indexes.visit (s : Indexes) (v : Item → ℕ) : Indexes :=
  { s with heap := s.heap.visit v }

/-- Under a type hang the items for the type index of some objects. -/
theorem Indexed.exists_typeItems (hs : Indexed s tree) (hn : .outer n ∈ inorder (tree .types)) :
    ∃ objs : List Address, inorder (tree (.sub n)) = objs.map .typeItem := by
  have hall : ∀ a ∈ inorder (tree (.sub n)), a ∈ Set.range Item.typeItem := by
    intro a ha
    obtain ⟨t, -, hmem, hkind⟩ := hs.hung n a ha
    obtain rfl := hs.forest.eq_of_mem hmem hn
    cases a with
    | typeItem obj => exact ⟨obj, rfl⟩
    | outer m => cases hkind
    | keywordItem obj i => cases hkind
  obtain ⟨objs, hobjs⟩ := (Set.range_list_map Item.typeItem).ge hall
  exact ⟨objs, hobjs.symm⟩

theorem Indexed.mem_typeItems_iff (hs : Indexed s tree) (hn : .outer n ∈ inorder (tree .types))
    (hkey : rank (s.heap.key (.outer n)) = [flag.1])
    (hobjs : inorder (tree (.sub n)) = objs.map .typeItem) :
    obj ∈ objs ↔ 0 < copies s.heap tree .types [flag.1] obj := by
  have hkeys : ∀ obj ∈ objs, s.heap.key (.typeItem obj) = .object obj := by
    intro obj hobj
    obtain ⟨obj', hitem, hkey⟩ := hs.inner n (.typeItem obj) (by simpa [hobjs] using hobj)
    obtain rfl := Option.some.inj hitem
    exact hkey
  rw [hs.copies_of_mem (t := .types) trivial hn hkey, copiesIn, List.countP_pos_iff, hobjs]
  constructor
  · intro hobj
    exact ⟨.typeItem obj, List.mem_map_of_mem hobj, by simp [hkeys obj hobj]⟩
  · rintro ⟨a, ha, hobj⟩
    obtain ⟨obj', hobj', rfl⟩ := List.mem_map.mp ha
    have heq : obj' = obj := by simpa [hkeys obj' hobj'] using hobj
    exact heq ▸ hobj'

/-- A call finds the object after the last one. -/
theorem objectTypeFindNext_some (before : List Address)
    (hrep : Represents s.heap (.sub n) (tree (.sub n)))
    (hfind : findIn garbage fuel (s.heap.visit v) (some .types) (.type flag) =
      some (some (.outer n)))
    (hobjs : inorder (tree (.sub n)) = (before ++ obj :: after).map .typeItem)
    (hupto : Upto v (before.map .typeItem) (.typeItem obj) (after.map .typeItem))
    (hfuel : (tree (.sub n)).numNodes ≤ fuel) :
    ∃ v', objectTypeFindNext garbage fuel flag (some obj) (s.visit v) =
        some (s.visit v', after.head?) ∧ ∀ next after', after = next :: after' →
      Upto v' ((before ++ [obj]).map .typeItem) (.typeItem next) (after'.map .typeItem) := by
  rw [List.map_append, List.map_cons] at hobjs
  obtain ⟨v', hrun, hnext⟩ := findNextLoop_eq hrep hobjs hupto hfuel
  refine ⟨v', ?_, ?_⟩
  · have hrun' : findNextLoop fuel (fun item ↦ some (some item)) fuel (s.visit v).heap
        (.typeItem obj) = some (s.heap.visit v', (after.map Item.typeItem).head?) := hrun
    have hfind' : findIn garbage fuel (s.visit v).heap (some .types) (.type flag) =
        some (some (.outer n)) := hfind
    simp only [objectTypeFindNext, hfind', Option.bind_eq_bind, Option.bind_some, Item.subtree,
      hrun']
    cases after <;> rfl
  · rintro next after' rfl
    rw [List.map_append]
    exact hnext _ _ rfl

/-- The calls from one object on give the objects after it. -/
theorem objectsFrom_some {turns : ℕ} (before : List Address)
    (hrep : Represents s.heap (.sub n) (tree (.sub n)))
    (hfind : ∀ v, findIn garbage fuel (s.heap.visit v) (some .types) (.type flag) =
      some (some (.outer n)))
    (hobjs : inorder (tree (.sub n)) = (before ++ obj :: after).map .typeItem)
    (hupto : Upto v (before.map .typeItem) (.typeItem obj) (after.map .typeItem))
    (hfuel : (tree (.sub n)).numNodes ≤ fuel) (hturns : after.length < turns) :
    objectsFrom garbage fuel flag turns (some obj) (s.visit v) = some after := by
  obtain ⟨turns, rfl⟩ : ∃ less, turns = less + 1 := ⟨turns - 1, by omega⟩
  obtain ⟨v', hrun, hnext⟩ :=
    objectTypeFindNext_some garbage before hrep (hfind v) hobjs hupto hfuel
  induction after generalizing v v' before obj turns with
  | nil => simp [objectsFrom, hrun]
  | cons next after ih =>
      have hobjs' : inorder (tree (.sub n)) =
          ((before ++ [obj]) ++ next :: after).map .typeItem := by
        simpa using hobjs
      have hupto' := hnext next after rfl
      simp only [List.length_cons] at hturns
      obtain ⟨turns, rfl⟩ : ∃ less, turns = less + 1 := ⟨turns - 1, by omega⟩
      obtain ⟨v'', hrun', hnext'⟩ :=
        objectTypeFindNext_some garbage (before ++ [obj]) hrep (hfind v') hobjs' hupto' hfuel
      have hrest := ih (before ++ [obj]) hobjs' hupto' turns (by omega) v'' hrun' hnext'
      rw [objectsFrom, hrun]
      simp only [Option.bind_eq_bind, Option.bind_some, List.head?_cons, hrest]

/-- The objects of a type are those that its tree has, in order and each once. -/
theorem objectsOfType_eq (hs : Indexed s tree) (hfuel : ∀ b, (tree b).numNodes < fuel)
    (flag : ItemType) :
    ∃ found, objectsOfType garbage fuel flag s = some found ∧ found.Nodup ∧
      ∀ obj, obj ∈ found ↔ 0 < copies s.heap tree .types [flag.1] obj := by
  have hsuits : Suits .types (.type flag) := ⟨flag, rfl⟩
  obtain ⟨turns, hturns⟩ : ∃ turns, fuel = turns + 1 :=
    ⟨fuel - 1, by have := hfuel .types; omega⟩
  rcases hs.forest.find (orders garbage) hsuits (hfuel .types).le with
    ⟨hfind, hnew⟩ | ⟨a, ha, hrank, hfind⟩
  · refine ⟨[], ?_, List.nodup_nil, ?_⟩
    · have hcall : objectTypeFindNext garbage fuel flag none s = some (s, none) := by
        simp [objectTypeFindNext, findIn, hfind]
      rw [objectsOfType, hturns, objectsFrom, ← hturns, hcall]
      rfl
    · intro obj
      have hzero : copies s.heap tree .types [flag.1] obj = 0 := Indexed.copies_of_ne hnew obj
      simp [hzero]
  · obtain ⟨n, -, rfl⟩ := hs.outer .types trivial a ha
    obtain ⟨objs, hobjs⟩ := hs.exists_typeItems ha
    have hrep := hs.forest.represents (.sub n)
    have hfind' : ∀ v, findIn garbage fuel (s.heap.visit v) (some .types) (.type flag) =
        some (some (.outer n)) := by
      intro v
      rw [← hfind, balancedBTreeFind_eq (hs.forest.represents .types) (hfuel .types).le]
      exact balancedBTreeFind_eq ((hs.forest.represents .types).visit v) (hfuel .types).le _
    have hclear : balancedBTreeUnvisit fuel s.heap (s.heap.root (.sub n)) =
        some (s.heap.visit (cleared s.heap.visited (tree (.sub n)))) :=
      balancedBTreeUnvisit_eq hrep.links s.heap.visited (hfuel _).le
    have hleast : balancedBTreeFindLeast (s.heap.visit (cleared s.heap.visited (tree (.sub n))))
        fuel (s.heap.root (.sub n)) = some ((objs.map Item.typeItem).head?) := by
      rw [balancedBTreeFindLeast_eq (hrep.links.visit _) (hfuel (.sub n)).le, ← hobjs,
        ← least_eq_head?]
      rfl
    have hfirst : objectTypeFindNext garbage fuel flag none s =
        some (s.visit (cleared s.heap.visited (tree (.sub n))), objs.head?) := by
      have hcall : findIn garbage fuel s.heap (some .types) (.type flag) =
          some (some (.outer n)) := hfind' s.heap.visited
      have hleast' : balancedBTreeFindLeast
          (s.heap.visit (cleared s.heap.visited (tree (.sub n)))) fuel
          ((s.heap.visit (cleared s.heap.visited (tree (.sub n)))).root (.sub n)) =
            some ((objs.map Item.typeItem).head?) := hleast
      simp only [objectTypeFindNext, hcall, Option.bind_eq_bind, Option.bind_some, Item.subtree,
        hclear, hleast']
      cases objs <;> rfl
    refine ⟨objs, ?_, ?_, fun obj ↦ hs.mem_typeItems_iff ha hrank hobjs⟩
    · rw [objectsOfType, hturns, objectsFrom, ← hturns, hfirst]
      cases objs with
      | nil => rfl
      | cons obj after =>
          have hlength : after.length < turns := by
            have hsize := hfuel (.sub n)
            rw [← length_inorder, hobjs, List.length_map, List.length_cons, hturns] at hsize
            omega
          have hrest : objectsFrom garbage fuel flag turns (some obj)
              (s.visit (cleared s.heap.visited (tree (.sub n)))) = some after :=
            objectsFrom_some garbage [] hrep hfind' hobjs (upto_cleared hobjs)
              (hfuel _).le hlength
          simp only [Option.bind_eq_bind, Option.bind_some, List.head?_cons, hrest]
    · have hnodup := hrep.nodup
      rw [hobjs] at hnodup
      exact hnodup.of_map _

end Finding

/-! ## Runs -/

/-- The calls that make and free objects. -/
inductive Call where
  | read (obj : Address) (flag : ItemType) (words : List (Option Word))
  | extract (obj : Address)

def Call.run (garbage : Key → Key → ℤ) (fuel : ℕ) : Call → Indexes → Option Indexes
  | .read obj flag words => objectRead garbage fuel obj flag words
  | .extract obj => objectExtract garbage fuel obj

def runCalls (garbage : Key → Key → ℤ) (fuel : ℕ) (calls : List Call) : Option Indexes :=
  calls.foldlM (fun s call ↦ call.run garbage fuel s) .empty

/-- An object that is read has the address of no live object, and one that is extracted is live. -/
def Valid (live : Finset Address) : List Call → Prop
  | [] => True
  | .read obj _ _ :: calls => obj ∉ live ∧ Valid (insert obj live) calls
  | .extract obj :: calls => obj ∈ live ∧ Valid (live.erase obj) calls

/-- `objectTypeFindFirst` and `objectTypeFindNext` give the live objects of a type, each once. -/
def Mirrors (garbage : Key → Key → ℤ) (fuel : ℕ) (s : Indexes) : Prop :=
  ∀ flag, ∃ found, objectsOfType garbage fuel flag s = some found ∧ found.Nodup ∧
    ∀ obj, obj ∈ found ↔ obj ∈ s.live ∧ s.typeFlag obj = flag

/-- What holds as long as no object has been extracted: a live object is listed under its type, and
under no keyword more often than it has it. -/
structure Typed (s : Indexes) (tree : Tree → BinaryTree Item) : Prop where
  indexed : Indexed s tree
  types : ∀ flag obj, 0 < copies s.heap tree .types [flag] obj ↔
    obj ∈ s.live ∧ flag = (s.typeFlag obj).1
  dead : ∀ obj ∉ s.live, ∀ r, copies s.heap tree .types r obj = 0
  notListed : ∀ index, ∀ obj ∉ s.live, ∀ r, copies s.heap tree (.keywords index) r obj = 0
  count_le : ∀ index obj r,
    copies s.heap tree (.keywords index) r obj ≤ (folds (s.words obj)).count r

section Steps

variable (garbage : Key → Key → ℤ) {fuel : ℕ} {s : Indexes} {tree : Tree → BinaryTree Item}
  {obj : Address}

theorem typed_empty : Typed .empty fun _ ↦ .nil where
  indexed := indexed_empty
  types flag obj := by simp [copies, Indexes.empty, inorder]
  dead _ _ _ := rfl
  notListed _ _ _ _ := rfl
  count_le _ _ _ := Nat.zero_le _

/-- An object is read. -/
theorem Typed.read (hs : Typed s tree) (hobj : obj ∉ s.live) (flag : ItemType)
    (words : List (Option Word)) (hfuel : ∀ b, (tree b).numNodes + words.length < fuel) :
    ∃ s' tree', objectRead garbage fuel obj flag words s = some s' ∧ Typed s' tree' ∧
      s'.live = {obj} ∪ s.live ∧
      ∀ b, (tree' b).numNodes ≤ (tree b).numNodes + words.length + 1 := by
  obtain ⟨hs₁, hcopies₁⟩ := create_spec hs.indexed (hs.dead obj hobj) flag words
  have hnone : ∀ index r,
      copies (create obj flag words s).heap tree (.keywords index) r obj = 0 := by
    intro index r
    rw [hcopies₁ (.keywords index) r obj trivial]
    exact hs.notListed index obj hobj r
  have hwords₁ : (create obj flag words s).words obj = words := Function.update_self _ _ _
  obtain ⟨s₂, tree₂, hrun₂, hs₂, hwords₂, hflag₂, hlive₂, hsize₂, hcopies₂, helse₂⟩ :=
    objectKeywordTreeAdd_spec garbage .objects hs₁ hnone fun b ↦ (hwords₁.symm ▸ hfuel b).le
  rw [hwords₁] at hsize₂ hcopies₂
  have htypes₂ : ∀ r obj', copies s₂.heap tree₂ .types r obj' = copies s.heap tree .types r obj' :=
    fun r obj' ↦ (helse₂ .types r obj' trivial (by simp)).trans (hcopies₁ .types r obj' trivial)
  have hitem₂ : ∀ b, .typeItem obj ∉ inorder (tree₂ b) := by
    intro b
    refine hs₂.notMem_of_copies rfl ?_ b
    intro t r ht hkind
    cases t with
    | keywords index => cases hkind
    | types =>
        rw [htypes₂]
        exact hs.dead obj hobj r
    | sub n => cases hkind
  have hflag : s₂.typeFlag obj = flag := by
    rw [hflag₂]
    exact Function.update_self _ _ _
  obtain ⟨s₃, tree₃, hrun₃, hs₃, hsame₃, hgrows₃, -, hgains₃⟩ :=
    hs₂.indexAdd garbage (t := .types) trivial ⟨flag, rfl⟩ hitem₂ rfl trivial
      fun b ↦ (hsize₂ b).trans_lt (hfuel b)
  have hlive : ∀ obj', obj' ∈ s₃.live ↔ obj' = obj ∨ obj' ∈ s.live := by
    intro obj'
    rw [hsame₃.live, hlive₂]
    exact Finset.mem_insert
  have hkeywords : ∀ index obj' r, copies s₃.heap tree₃ (.keywords index) r obj' =
      copies s₂.heap tree₂ (.keywords index) r obj' :=
    fun index obj' r ↦ hgains₃.elsewhere (.keywords index) r obj' trivial (by simp)
  have hother : ∀ index obj' r, obj' ≠ obj → copies s₃.heap tree₃ (.keywords index) r obj' =
      copies s.heap tree (.keywords index) r obj' := by
    intro index obj' r hne
    rw [hkeywords, helse₂ (.keywords index) r obj' trivial (by simp [hne]),
      hcopies₁ (.keywords index) r obj' trivial]
  refine ⟨s₃, tree₃, ?_, ⟨hs₃, ?_, ?_, ?_, ?_⟩, ?_, ?_⟩
  · simp [objectRead, objectTypeTreeAdd, hrun₂, hflag, hrun₃]
  · intro flag' obj'
    rw [hlive, hsame₃.typeFlag, hflag₂]
    by_cases hne : obj' = obj
    · subst hne
      have hself : (create obj' flag words s).typeFlag obj' = flag := Function.update_self _ _ _
      rw [hself]
      by_cases hsame : flag' = flag.1
      · subst hsame
        have hpos := hgains₃.here
        simp only [rank, htypes₂, hs.dead obj' hobj] at hpos
        simp only [true_or, and_self, iff_true]
        omega
      · have hold := hgains₃.elsewhere .types [flag'] obj' trivial (by simp [rank, hsame])
        rw [hold, htypes₂, hs.dead obj' hobj]
        simp [hsame]
    · have hkeep : (create obj flag words s).typeFlag obj' = s.typeFlag obj' :=
        Function.update_of_ne hne _ _
      rw [hkeep, hgains₃.elsewhere .types [flag'] obj' trivial (by simp [hne]), htypes₂, hs.types]
      simp [hne]
  · intro obj' hdead r
    rw [hlive, not_or] at hdead
    rw [hgains₃.elsewhere .types r obj' trivial (by simp [hdead.1]), htypes₂]
    exact hs.dead obj' hdead.2 r
  · intro index obj' hdead r
    rw [hlive, not_or] at hdead
    rw [hother index obj' r hdead.1]
    exact hs.notListed index obj' hdead.2 r
  · intro index obj' r
    rw [hsame₃.words, hwords₂]
    by_cases hne : obj' = obj
    · subst hne
      rw [hkeywords, hwords₁]
      by_cases hindex : index = .objects
      · subst hindex
        exact (hcopies₂ r).1
      · rw [helse₂ (.keywords index) r obj' trivial (by simp [hindex]), hnone]
        exact Nat.zero_le _
    · have hkeep : (create obj flag words s).words obj' = s.words obj' :=
        Function.update_of_ne hne _ _
      rw [hother index obj' r hne, hkeep]
      exact hs.count_le index obj' r
  · ext obj'
    rw [hlive, Finset.mem_union, Finset.mem_singleton]
  · intro b
    exact (hgrows₃ b).trans (Nat.add_le_add_right (hsize₂ b) 1)

/-- An object that is extracted is still listed under its type. -/
theorem Typed.extract (hs : Typed s tree) (hobj : obj ∈ s.live)
    (hfuel : ∀ b, (tree b).numNodes < fuel) :
    ∃ s', objectExtract garbage fuel obj s = some s' ∧ ¬ Mirrors garbage fuel s' := by
  obtain ⟨s₁, tree₁, hrun₁, hs₁, -, -, hlive₁, hsize₁, hcopies₁, helse₁⟩ :=
    objectKeywordTreeRemove_spec garbage .objects obj hs.indexed fun b ↦ (hfuel b).le
  have hsize : ∀ b, (tree₁ b).numNodes < fuel := fun b ↦ (hsize₁ b).trans_lt (hfuel b)
  have hzero : ∀ r, copies s₁.heap tree₁ (.keywords .objects) r obj = 0 := by
    intro r
    have hle := hs.count_le .objects obj r
    rw [hcopies₁]
    omega
  have htypes : objectTypeTreeRemove garbage fuel obj s₁ = some s₁ :=
    hs₁.indexRemove_absent garbage (t := .keywords .objects) trivial (some .types) _ hzero
      fun b ↦ (hsize b).le
  refine ⟨objectFree obj s₁, ?_, ?_⟩
  · simp [objectExtract, hrun₁, htypes]
  · intro hmirrors
    have hs₂ : Indexed (objectFree obj s₁) tree₁ := hs₁.congr rfl rfl
    obtain ⟨found, hfound, -, hmem⟩ := hmirrors (s.typeFlag obj)
    obtain ⟨found', hfound', -, hmem'⟩ := objectsOfType_eq garbage hs₂ hsize (s.typeFlag obj)
    obtain rfl := Option.some.inj (hfound.symm.trans hfound')
    have hstale : obj ∈ found := by
      rw [hmem']
      have hold : copies (objectFree obj s₁).heap tree₁ .types [(s.typeFlag obj).1] obj =
          copies s.heap tree .types [(s.typeFlag obj).1] obj :=
        helse₁ .types _ obj trivial (by simp)
      rw [hold, hs.types]
      exact ⟨hobj, rfl⟩
    have hlive := ((hmem obj).mp hstale).1
    simp [objectFree] at hlive

theorem Typed.mirrors (hs : Typed s tree) (hfuel : ∀ b, (tree b).numNodes < fuel) :
    Mirrors garbage fuel s := by
  intro flag
  obtain ⟨found, hfound, hnodup, hmem⟩ := objectsOfType_eq garbage hs.indexed hfuel flag
  refine ⟨found, hfound, hnodup, fun obj ↦ ?_⟩
  rw [hmem, hs.types, Fin.val_inj, eq_comm]

end Steps

/-- How many items a call can add to a tree. -/
def Call.items : Call → ℕ
  | .read _ _ words => words.length + 1
  | .extract _ => 0

section Whole

variable (garbage : Key → Key → ℤ) {fuel : ℕ}

/-- A run without `objectExtract`. -/
theorem Typed.run {s : Indexes} {tree : Tree → BinaryTree Item} {calls rest : List Call}
    (hs : Typed s tree) (hvalid : Valid s.live (calls ++ rest))
    (hreads : ∀ obj, Call.extract obj ∉ calls)
    (hfuel : ∀ b, (tree b).numNodes + (calls.map Call.items).sum < fuel) :
    ∃ s' tree', calls.foldlM (fun s call ↦ call.run garbage fuel s) s = some s' ∧
      Typed s' tree' ∧ Valid s'.live rest ∧ ∀ b, (tree' b).numNodes < fuel := by
  induction calls generalizing s tree with
  | nil => exact ⟨s, tree, rfl, hs, hvalid, by simpa using hfuel⟩
  | cons call calls ih =>
      cases call with
      | extract obj => exact absurd List.mem_cons_self (hreads obj)
      | read obj flag words =>
          obtain ⟨hobj, hvalid⟩ := hvalid
          simp only [List.map_cons, List.sum_cons, Call.items] at hfuel
          have hfuel₁ : ∀ b, (tree b).numNodes + words.length < fuel := by
            intro b
            have hlt := hfuel b
            omega
          obtain ⟨s₁, tree₁, hrun₁, hs₁, hlive₁, hsize₁⟩ := hs.read garbage hobj flag words hfuel₁
          have hvalid₁ : Valid s₁.live (calls ++ rest) := by
            rw [hlive₁, ← Finset.insert_eq]
            exact hvalid
          have hfuel₂ : ∀ b, (tree₁ b).numNodes + (calls.map Call.items).sum < fuel := by
            intro b
            have hlt := hfuel b
            have hle := hsize₁ b
            omega
          obtain ⟨s', tree', hrun, hrest⟩ := ih hs₁ hvalid₁
            (fun obj' hmem ↦ hreads obj' (List.mem_cons_of_mem _ hmem)) hfuel₂
          refine ⟨s', tree', ?_, hrest⟩
          have hcall : (Call.read obj flag words).run garbage fuel s = some s₁ := hrun₁
          rw [List.foldlM_cons, hcall]
          exact hrun

theorem exists_first_extract {calls : List Call} {obj : Address}
    (hmem : Call.extract obj ∈ calls) :
    ∃ reads obj rest, calls = reads ++ .extract obj :: rest ∧
      ∀ obj', Call.extract obj' ∉ reads := by
  induction calls with
  | nil => cases hmem
  | cons call calls ih =>
      cases call with
      | extract obj' => exact ⟨[], obj', calls, rfl, by simp⟩
      | read obj' flag words =>
          obtain ⟨reads, obj₁, rest, rfl, hreads⟩ := ih (by simpa using hmem)
          exact ⟨.read obj' flag words :: reads, obj₁, rest, rfl, by simpa using hreads⟩

/-- The type index mirrors the live objects all the time exactly in runs that extract none. -/
theorem objectTypeTree_mirrors_iff (calls : List Call) (hvalid : Valid ∅ calls) :
    ∃ n, ∀ fuel ≥ n,
      (∀ pre, pre <+: calls → ∃ s, runCalls garbage fuel pre = some s ∧
        Mirrors garbage fuel s) ↔ ∀ obj, Call.extract obj ∉ calls := by
  refine ⟨(calls.map Call.items).sum + 1, fun fuel hfuel ↦ ?_⟩
  have hnil : (BinaryTree.nil : BinaryTree Item).numNodes + (calls.map Call.items).sum <
      fuel := by
    rw [BinaryTree.numNodes, Nat.zero_add]
    exact hfuel
  constructor
  · intro hall obj hmem
    obtain ⟨reads, obj, rest, rfl, hreads⟩ := exists_first_extract hmem
    have hfuel' : ∀ b : Tree, (BinaryTree.nil : BinaryTree Item).numNodes +
        (reads.map Call.items).sum < fuel := by
      intro _
      refine lt_of_le_of_lt ?_ hnil
      simp
    obtain ⟨s, tree, hrun, hs, ⟨hobj, -⟩, hsize⟩ :=
      typed_empty.run garbage hvalid hreads hfuel'
    obtain ⟨s', hextract, hnot⟩ := hs.extract garbage hobj hsize
    obtain ⟨s'', hrun', hmirrors⟩ := hall (reads ++ [.extract obj]) ⟨rest, by simp⟩
    have hcall : (Call.extract obj).run garbage fuel s = some s' := hextract
    have hrun'' : runCalls garbage fuel (reads ++ [.extract obj]) = some s' := by
      rw [runCalls, List.foldlM_append, hrun]
      simp [hcall]
    obtain rfl := Option.some.inj (hrun'.symm.trans hrun'')
    exact hnot hmirrors
  · rintro hreads pre ⟨rest, rfl⟩
    have hfuel' : ∀ b : Tree, (BinaryTree.nil : BinaryTree Item).numNodes +
        (pre.map Call.items).sum < fuel := by
      intro _
      refine lt_of_le_of_lt ?_ hnil
      simp
    obtain ⟨s, tree, hrun, hs, -, hsize⟩ := typed_empty.run garbage hvalid
      (fun obj hmem ↦ hreads obj (List.mem_append_left _ hmem)) hfuel'
    exact ⟨s, hrun, hs.mirrors garbage hsize⟩

end Whole

/-- Two objects of one type are read. -/
def twoRead : List Call :=
  [.read 1 5 [some ⟨[97], by decide⟩], .read 2 5 []]

theorem objectTypeTree_mirrors_iff_twoRead :
    ∃ n, ∀ fuel ≥ n,
      (∀ pre, pre <+: twoRead → ∃ s, runCalls (fun _ _ ↦ 0) fuel pre = some s ∧
        Mirrors (fun _ _ ↦ 0) fuel s) ↔ ∀ obj, Call.extract obj ∉ twoRead :=
  objectTypeTree_mirrors_iff (fun _ _ ↦ 0) twoRead ⟨by decide, by decide, trivial⟩

/-- An object that was extracted is found. -/
theorem extracted_found :
    ∃ s, runCalls (fun _ _ ↦ 0) 8 [.read 1 5 [], .extract 1] = some s ∧
      objectsOfType (fun _ _ ↦ 0) 8 5 s = some [1] ∧ 1 ∉ s.live := by
  have hfound : (runCalls (fun _ _ ↦ 0) 8 [.read 1 5 [], .extract 1]).bind (fun s ↦
      (objectsOfType (fun _ _ ↦ 0) 8 5 s).map fun found ↦ (found, decide (1 ∈ s.live))) =
        some ([1], false) := by
    decide +kernel
  obtain ⟨s, hrun, hlist⟩ := Option.bind_eq_some_iff.mp hfound
  obtain ⟨found, hfound, heq⟩ := Option.map_eq_some_iff.mp hlist
  obtain ⟨rfl, hlive⟩ := Prod.mk.inj heq
  exact ⟨s, hrun, hfound, of_decide_eq_false hlive⟩

end HavokMud.Objects
