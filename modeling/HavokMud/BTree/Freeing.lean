import HavokMud.BTree.Replace

/-!
# A memory that records what is freed

The functions of `balanced_btree.c` that take an item off a tree run here over a memory that keeps a
list of what has been freed.  They stop where the source reads, writes or frees an allocation that
is not there any more, and where it follows NULL.  What they do to the links is what the functions
over the plain graph do.

As over the plain graph the mutex of a tree is left out: to lock, to unlock or to destroy it is to
touch the tree.
-/

namespace HavokMud.BTree.Freeing

variable {ι κ τ ν σ α β : Type}

/-- An allocation: an item, a tree, the place that `item->key` points to, or a value. -/
inductive Cell (ι κ τ ν : Type)
  | item (a : ι)
  | tree (t : τ)
  | key (k : κ)
  | value (v : ν)
deriving DecidableEq

/-- The items and trees with what `item->item` points to and the text at each key, and all that has
been freed.  Equal texts are one string with a count of its links, so the links that are given back
are recorded on their own. -/
@[ext]
structure Memory (ι κ τ ν σ : Type) where
  heap : Heap ι κ τ
  contents : ι → Cell ι κ τ ν
  name : κ → Option σ
  freed : List (Cell ι κ τ ν)
  unlinked : List σ

/-- What stops at an allocation that has been freed. -/
abbrev Run (ι κ τ ν σ : Type) := StateT (Memory ι κ τ ν σ) Option

/-- A computation that returns goes on with what comes next. -/
theorem bind_of_some {p : Run ι κ τ ν σ α} {m m' : Memory ι κ τ ν σ} {a : α}
    (h : p m = some (a, m')) (q : α → Run ι κ τ ν σ β) : (p >>= q) m = q a m' := by
  simp [bind, StateT.bind, h]

theorem bind_eq_some {p : Run ι κ τ ν σ α} {q : α → Run ι κ τ ν σ β} {m m' : Memory ι κ τ ν σ}
    {b : β} :
    (p >>= q) m = some (b, m') ↔ ∃ a m₁, p m = some (a, m₁) ∧ q a m₁ = some (b, m') := by
  simp [bind, StateT.bind, Option.bind_eq_some_iff]

/-- Where the computation returns, it answers `v` and has changed nothing. -/
def Reads (p : Run ι κ τ ν σ α) (v : Heap ι κ τ → Option α) : Prop :=
  ∀ m a m', p m = some (a, m') → v m.heap = some a ∧ m' = m

/-- Where the computation returns, it has edited the links as `f` does, and nothing else. -/
def Edits (p : Run ι κ τ ν σ Unit) (f : Heap ι κ τ → Option (Heap ι κ τ)) : Prop :=
  ∀ m u m', p m = some (u, m') → f m.heap = some m'.heap ∧ m' = { m with heap := m'.heap }

section Rules

variable {p q : Run ι κ τ ν σ Unit} {f g : Heap ι κ τ → Option (Heap ι κ τ)}
  {r : Run ι κ τ ν σ α} {v : Heap ι κ τ → Option α}

theorem Edits.congr (hp : Edits p f) (h : ∀ heap, f heap = g heap) : Edits p g := by
  intro m u m' hrun
  rw [← h]
  exact hp m u m' hrun

theorem Edits.seq (hp : Edits p f) (hq : Edits q g) :
    Edits (p >>= fun _ ↦ q) (fun h ↦ f h >>= g) := by
  intro m u m' h
  obtain ⟨u', m₁, h₁, h₂⟩ := bind_eq_some.mp h
  obtain ⟨hf, hm₁⟩ := hp m u' m₁ h₁
  obtain ⟨hg, hm'⟩ := hq m₁ u m' h₂
  refine ⟨by simp [hf, hg], ?_⟩
  rw [hm', hm₁]

theorem Reads.congr {w : Heap ι κ τ → Option α} (hr : Reads r v) (h : ∀ heap, v heap = w heap) :
    Reads r w := by
  intro m a m' hrun
  rw [← h]
  exact hr m a m' hrun

theorem Reads.bind (hr : Reads r v) {q : α → Run ι κ τ ν σ β}
    {w : α → Heap ι κ τ → Option β} (hq : ∀ a, Reads (q a) (w a)) :
    Reads (r >>= q) (fun h ↦ v h >>= fun a ↦ w a h) := by
  intro m b m' h
  obtain ⟨a, m₁, h₁, h₂⟩ := bind_eq_some.mp h
  obtain ⟨hv, rfl⟩ := hr m a m₁ h₁
  obtain ⟨hw, rfl⟩ := hq a m₁ b m' h₂
  exact ⟨by simp [hv, hw], rfl⟩

end Rules

/-- A pointer that must not be NULL. -/
def follow : Option α → Run ι κ τ ν σ α
  | some a => pure a
  | none => failure

variable [DecidableEq ι] [DecidableEq κ] [DecidableEq τ] [DecidableEq ν]

instance decidableFreed (c : Cell ι κ τ ν) (m : Memory ι κ τ ν σ) : Decidable (c ∈ m.freed) :=
  inferInstance

/-- An access to an allocation. -/
def touch (c : Cell ι κ τ ν) : Run ι κ τ ν σ Unit :=
  fun m ↦ if c ∈ m.freed then none else some ((), m)

/-- A field of an item. -/
def field (f : Memory ι κ τ ν σ → ι → α) (a : ι) : Run ι κ τ ν σ α :=
  fun m ↦ if .item a ∈ m.freed then none else some (f m a, m)

/-- A field of an item is written. -/
def write (a : ι) (f : Heap ι κ τ → Heap ι κ τ) : Run ι κ τ ν σ Unit :=
  fun m ↦ if .item a ∈ m.freed then none else some ((), { m with heap := f m.heap })

/-- `btree->root`. -/
def root (t : τ) : Run ι κ τ ν σ (Option ι) :=
  fun m ↦ if .tree t ∈ m.freed then none else some (m.heap.root t, m)

def setRoot (t : τ) (p : Option ι) : Run ι κ τ ν σ Unit :=
  fun m ↦ if .tree t ∈ m.freed then none else some ((), { m with heap := m.heap.setRoot t p })

/-- `memfree` of an allocation that no string stands in. -/
def memfree (c : Cell ι κ τ ν) : Run ι κ τ ν σ Unit :=
  fun m ↦ if c ∈ m.freed then none else some ((), { m with freed := m.freed ++ [c] })

/-- `memfree` of a string, which gives back one link, or of NULL. -/
def memfreeString (s : Option σ) : Run ι κ τ ν σ Unit :=
  fun m ↦ some ((), { m with unlinked := m.unlinked ++ s.toList })

section Accesses

variable {m m' : Memory ι κ τ ν σ} {a : ι} {t : τ} {c : Cell ι κ τ ν} {u : Unit}

theorem field_eq_some {f : Memory ι κ τ ν σ → ι → α} {v : α} :
    field f a m = some (v, m') ↔ .item a ∉ m.freed ∧ f m a = v ∧ m = m' := by
  by_cases h : Cell.item a ∈ m.freed <;> simp [field, h]

theorem root_eq_some {p : Option ι} :
    root t m = some (p, m') ↔ .tree t ∉ m.freed ∧ m.heap.root t = p ∧ m = m' := by
  by_cases h : Cell.tree t ∈ m.freed <;> simp [root, h]

theorem memfree_eq_some :
    memfree c m = some (u, m') ↔ c ∉ m.freed ∧ { m with freed := m.freed ++ [c] } = m' := by
  by_cases h : c ∈ m.freed <;> simp [memfree, h]

theorem touch_eq_some : touch c m = some (u, m') ↔ c ∉ m.freed ∧ m = m' := by
  by_cases h : c ∈ m.freed <;> simp [touch, h]

end Accesses

/-! ## The functions of the source -/

def setLeft (a : ι) (p : Option ι) : Run ι κ τ ν σ Unit := write a fun h ↦ h.setLeft a p
def setRight (a : ι) (p : Option ι) : Run ι κ τ ν σ Unit := write a fun h ↦ h.setRight a p
def setParent (a : ι) (p : Option ι) : Run ι κ τ ν σ Unit := write a fun h ↦ h.setParent a p

/-- `if( child ) child->parent = p`. -/
def setParentOf (child : Option ι) (p : Option ι) : Run ι κ τ ν σ Unit :=
  match child with
  | none => pure ()
  | some c => setParent c p

/-- The parent's link, or the root of the tree, that pointed to `old` points to `new`. -/
def relink (btree : τ) (parent : Option ι) (old : ι) (new : Option ι) : Run ι κ τ ν σ Unit :=
  match parent with
  | none => setRoot btree new
  | some q => do
      if (← field (·.heap.left) q) = some old then setLeft q new else setRight q new

/-- `BalancedBTreeWeight`. -/
def balancedBTreeWeight : ℕ → Option ι → Run ι κ τ ν σ ℕ
  | _, none => pure 0
  | 0, some _ => failure
  | fuel + 1, some a => do
      let left ← balancedBTreeWeight fuel (← field (·.heap.left) a)
      let right ← balancedBTreeWeight fuel (← field (·.heap.right) a)
      pure (1 + left + right)

/-- The loop of `BalancedBTreeFindGreatest`. -/
def findGreatestLoop : ℕ → Option ι → Option ι → Run ι κ τ ν σ (Option ι)
  | _, prev, none => pure prev
  | 0, _, some _ => failure
  | fuel + 1, _, some a => do findGreatestLoop fuel (some a) (← field (·.heap.right) a)

def balancedBTreeFindGreatest (fuel : ℕ) (root : Option ι) : Run ι κ τ ν σ (Option ι) :=
  findGreatestLoop fuel none root

/-- The loop of `BalancedBTreeFindLeast`. -/
def findLeastLoop : ℕ → Option ι → Option ι → Run ι κ τ ν σ (Option ι)
  | _, prev, none => pure prev
  | 0, _, some _ => failure
  | fuel + 1, _, some a => do findLeastLoop fuel (some a) (← field (·.heap.left) a)

def balancedBTreeFindLeast (fuel : ℕ) (root : Option ι) : Run ι κ τ ν σ (Option ι) :=
  findLeastLoop fuel none root

/-- `replace->parent` loses `replace`, whose only subtree takes its place. -/
def unhang (parent replace : ι) : Run ι κ τ ν σ Unit := do
  if (← field (·.heap.left) parent) = some replace then
    -- the least of the right subtree
    let right ← field (·.heap.right) replace
    setLeft parent right
    setParentOf right (some parent)
  else if (← field (·.heap.right) parent) = some replace then
    -- the greatest of the left subtree
    let left ← field (·.heap.left) replace
    setRight parent left
    setParentOf left (some parent)

/-- `replace` takes over the right subtree of `item`. -/
def takeRight (item replace : ι) : Run ι κ τ ν σ Unit := do
  let right ← field (·.heap.right) item
  setRight replace right
  setParentOf right (some replace)

/-- `replace` takes over the left subtree of `item`. -/
def takeLeft (item replace : ι) : Run ι κ τ ν σ Unit := do
  let left ← field (·.heap.left) item
  setLeft replace left
  setParentOf left (some replace)

/-- The part of `BalancedBTreeReplace` that hands the links of `item` to `replace`. -/
def takeLinks (item replace : ι) : Run ι κ τ ν σ Unit := do
  let parent ← follow (← field (·.heap.parent) replace)
  if parent ≠ item then
    unhang parent replace
    takeRight item replace
    takeLeft item replace
  else if (← field (·.heap.right) item) = some replace then takeLeft item replace
  else if (← field (·.heap.left) item) = some replace then takeRight item replace

/-- What stood at `item` in the links of its parent becomes `replace`, with the links of `item`. -/
def putInPlace (btree : τ) (item : ι) : Option ι → Run ι κ τ ν σ Unit
  | some replace => do
      takeLinks item replace
      let parent ← field (·.heap.parent) item
      setParent replace parent
      relink btree parent item (some replace)
  | none => do relink btree (← field (·.heap.parent) item) item none

/-- The original is not linked to by anything, and loses its links. -/
def cutLoose (item : ι) : Run ι κ τ ν σ Unit := do
  setLeft item none
  setRight item none
  setParent item none

def balancedBTreeReplace (btree : τ) (item : ι) (replace : Option ι) : Run ι κ τ ν σ Unit :=
  if replace = some item then pure ()
  else do
    putInPlace btree item replace
    cutLoose item

/-- The item that `BalancedBTreeRemove` puts in the place of `item`, from the heavier side. -/
def replacement (fuel : ℕ) (item : ι) : Run ι κ τ ν σ (Option ι) := do
  let left ← balancedBTreeWeight fuel (← field (·.heap.left) item)
  let right ← balancedBTreeWeight fuel (← field (·.heap.right) item)
  if right < left then balancedBTreeFindGreatest fuel (← field (·.heap.left) item)
  else balancedBTreeFindLeast fuel (← field (·.heap.right) item)

/-- `BalancedBTreeRemove` of an item, on a locked tree and without rebalancing. -/
def balancedBTreeRemove (fuel : ℕ) (btree : Option τ) (item : ι) : Run ι κ τ ν σ Unit :=
  match btree with
  | none => pure ()
  | some btree => do
      if (← field (·.heap.btree) item) = some btree then
        balancedBTreeReplace btree item (← replacement fuel item)
        write item fun h ↦ h.setBtree item none

def balancedBTreePrune : ℕ → Option ι → Run ι κ τ ν σ Unit
  | _, none => pure ()
  | 0, some _ => failure
  | fuel + 1, some a => do
      balancedBTreePrune fuel (← field (·.heap.left) a)
      balancedBTreePrune fuel (← field (·.heap.right) a)
      balancedBTreeRemove fuel (← field (·.heap.btree) a) a
      memfree (.item a)

/-- `BalancedBTreeDestroy`. -/
def balancedBTreeDestroy (fuel : ℕ) (btree : τ) : Run ι κ τ ν σ Unit := do
  balancedBTreePrune fuel (← root btree)
  -- the mutex is unlocked and destroyed
  touch (.tree btree)
  memfree (.tree btree)

/-! ## What happens to the links -/

section Links

end Links

end HavokMud.BTree.Freeing
