import HavokMud.Memory.Pools

/-!
# Allocation, release and coalescing

The functions of `memory.c` that move fragments between the pools.  A function answers `none` when
the source would follow a `NULL` pointer, or when it would hand a tree an item whose key the tree
already holds.

The address `malloc` returns, and the time of day, are arguments.
-/

namespace HavokMud.Memory

open BinaryTree BTree SearchTree

/-- `TIME_DEFER`. -/
def timeDefer : ℤ :=
  10

/-- The part of `memoryFragmentSplit` that cuts a fragment: what is left over behind the first
`size` bytes becomes a fragment of the same block. -/
def carveRemainder (pl : Platform) (s : Allocator) (f : ℕ) (size : ℤ) : Option (Allocator × ℕ) := do
  let (s, remainder) ← memoryFragmentGetNew pl s
  let fragment := s.frags f
  let s := s.setFrag remainder
    { block := fragment.block
      pool := none
      size := fragment.size - size
      start := fragment.start + size
      endAddr := fragment.endAddr
      timestamp := 0 }
  let s := addToBlock s fragment.block remainder
  -- the source adds the size to `end`, it does not count it from `start`
  some (s.setFrag f { fragment with endAddr := fragment.endAddr + size, size := size }, remainder)

/-- The part of `memoryFragmentSplit` behind the removal from the pool: hand out the first `size`
bytes and put the rest into the free pool. -/
def handOut (pl : Platform) (s : Allocator) (f : ℕ) (size : ℤ) : Option Allocator := do
  let s ←
    if (s.frags f).size ≠ size then do
      let (s, remainder) ← carveRemainder pl s f size
      memoryFragmentAdd s .free remainder
    else some s
  memoryFragmentAdd s .alloc f

/-- The answer is the fragment, or nothing when it is too small. -/
def memoryFragmentSplit (pl : Platform) (s : Allocator) (f : ℕ) (size : ℤ) :
    Option (Allocator × Option ℕ) := do
  if size ≤ 0 ∨ (s.frags f).size < size then some (s, none)
  else
    let s := match (s.frags f).pool with
      | some pool => memoryFragmentRemove s pool f
      | none => s
    let s ← handOut pl s f size
    some (s, some f)

def memoryFragmentFindBySize (pl : Platform) (s : Allocator) (pool : Pool) (size : ℤ) :
    Option (Allocator × Option ℕ) :=
  if size ≤ 0 then some (s, none)
  else
    match memoryFragmentSelect s pool size with
    | none => some (s, none)
    | some f => memoryFragmentSplit pl s f size

/-- The number of bytes `memalloc` asks the operating system for: whole pages. -/
def pageRequest (pl : Platform) (size : ℕ) : ℤ :=
  let pageReq := toInt (size / pl.pageSize + if size % pl.pageSize ≠ 0 then 1 else 0 : ℕ)
  toInt (pageReq * pl.pageSize)

/-- The part of `memalloc` that gets a block at address `blk` and makes one fragment of it. -/
def newBlock (pl : Platform) (s : Allocator) (reqSize blk : ℤ) : Option (Allocator × ℕ) := do
  let s := s.countMalloc reqSize
  let (s, b) ← memoryBlockGetNew pl s
  let s := s.setBlock b
    { fragmentList := [], size := reqSize, start := blk, endAddr := blk + reqSize - 1 }
  let (s, f) ← memoryFragmentGetNew pl s
  let s := s.setFrag f
    { block := b, pool := none, size := reqSize, start := blk, endAddr := blk + reqSize - 1,
      timestamp := 0 }
  some (addToBlock s b f, f)

/-- The fragment `memalloc` finds for a request: from the free pool, else from the deferred pool,
else from a new block at address `blk`. -/
def memallocFragment (pl : Platform) (s : Allocator) (size : ℕ) (blk : ℤ) :
    Option (Allocator × ℕ) := do
  let (s, found) ← memoryFragmentFindBySize pl s .free (toInt size)
  if let some f := found then return (s, f)
  let (s, found) ← memoryFragmentFindBySize pl s .defer (toInt size)
  if let some f := found then return (s, f)
  let (s, f) ← newBlock pl s (pageRequest pl size) blk
  let (s, found) ← memoryFragmentSplit pl s f (toInt size)
  let f ← found
  return (s, f)

/-- `memalloc` but for clearing the memory it hands out. -/
def Allocator.memalloc (pl : Platform) (s : Allocator) (size : ℕ) (blk : ℤ) :
    Option (Allocator × ℤ) := do
  if size = 0 then some (s, 0)
  else
    let (s, f) ← memallocFragment pl s size blk
    some (s.addBytes size, s.start f)

/-- `memfree` of a pointer that is no interned string. -/
def Allocator.memfree (s : Allocator) (buffer now : ℤ) : Option Allocator :=
  match memoryFragmentFindByAddr s .alloc buffer with
  | none => some s
  | some f =>
      let s := s.addBytes (-(s.size f))
      let s := memoryFragmentRemove s .alloc f
      let s := s.setFrag f { s.frags f with timestamp := now + timeDefer }
      memoryFragmentAdd s .defer f

/-! ## The coalescing pass -/

/-- The element behind `x` in a list. -/
def nextAfter (l : List ℕ) (x : ℕ) : Option ℕ :=
  (l.dropWhile (· ≠ x)).tail.head?

/-- May `fragment2` be joined to `fragment`?  The second test of the source looks at the time stamp
of `fragment`, not at that of `fragment2`. -/
def mergeable (s : Allocator) (fragment fragment2 : ℕ) (now : ℤ) : Bool :=
  match (s.frags fragment2).pool with
  | some .defer => (s.frags fragment).timestamp ≤ now
  | some .free => true
  | _ => false

/-- Join the fragment that ends where `fragment` starts. -/
def mergePrevious (s : Allocator) (fragment fragment2 : ℕ) (now : ℤ) : Option Allocator := do
  let pool ← (s.frags fragment2).pool
  let s := memoryFragmentRemove s pool fragment2
  let s := memoryFragmentRemove s .defer fragment
  let s := s.setFrag fragment { s.frags fragment with
    size := toInt (s.size fragment + s.size fragment2)
    start := s.start fragment2
    timestamp := now + timeDefer }
  memoryFragmentAdd (memoryFragmentRelease s fragment2) .defer fragment

/-- Join the fragment that starts where `fragment` ends. -/
def mergeNext (s : Allocator) (fragment fragment2 : ℕ) (now : ℤ) : Option Allocator := do
  let pool ← (s.frags fragment2).pool
  let s := memoryFragmentRemove s .defer fragment
  let s := memoryFragmentRemove s pool fragment2
  let s := s.setFrag fragment { s.frags fragment with
    size := toInt (s.size fragment + s.size fragment2)
    endAddr := (s.frags fragment2).endAddr
    timestamp := now + timeDefer }
  memoryFragmentAdd (memoryFragmentRelease s fragment2) .defer fragment

/-- The walk over the fragments of a block, looking for neighbours of `fragment`.  After a
predecessor was joined the walk steps back by one. -/
def coalesceBlock (fragment block : ℕ) (now : ℤ) : ℕ → Allocator → Option ℕ → Option Allocator
  | _, s, none => some s
  | 0, _, some _ => none
  | fuel + 1, s, some fragment2 =>
      let list := (s.blocks block).fragmentList
      let next := nextAfter list fragment2
      if fragment = fragment2 then coalesceBlock fragment block now fuel s next
      else if (s.frags fragment2).endAddr + 1 = s.start fragment then
        if mergeable s fragment fragment2 now then do
          let s ← mergePrevious s fragment fragment2 now
          let back := nextAfter list.reverse fragment2
          coalesceBlock fragment block now fuel s
            (back <|> (s.blocks block).fragmentList.head?)
        else coalesceBlock fragment block now fuel s next
      else if (s.frags fragment).endAddr + 1 = s.start fragment2 then
        if mergeable s fragment fragment2 now then do
          let s ← mergeNext s fragment fragment2 now
          coalesceBlock fragment block now fuel s next
        else coalesceBlock fragment block now fuel s next
      else coalesceBlock fragment block now fuel s next

/-- `BalancedBTreeFindNext` on a tree all of whose items up to `f`, and no others, are marked as
visited. -/
def findNext (t : BinaryTree ℕ) (f : ℕ) : Option ℕ :=
  nextAfter (inorder t) f

/-- The first loop of a pass, over the deferred pool in address order. -/
def coalesceLoop (now : ℤ) : ℕ → Allocator → Option ℕ → Option Allocator
  | _, s, none => some s
  | 0, _, some _ => none
  | fuel + 1, s, some f => do
      let b := (s.frags f).block
      let list := (s.blocks b).fragmentList
      let s ←
        if now < (s.frags f).timestamp then some s
        else coalesceBlock f b now (2 * list.length + 1) s list.head?
      coalesceLoop now fuel s (findNext (s.pools .defer).addrTree f)

/-- Release the block of a fragment that is the whole block and whose deferral is over. -/
def releaseWhole (now : ℤ) (s : Allocator) (f : ℕ) : Allocator :=
  let b := (s.frags f).block
  if now < (s.frags f).timestamp ∨ (s.frags f).size ≠ (s.blocks b).size then s
  else memoryBlockRelease (memoryFragmentRelease (memoryFragmentRemove s .defer f) f) b

/-- The second loop of a pass: the next item is looked up before the block is released. -/
def releaseLoop (now : ℤ) : ℕ → Allocator → Option ℕ → Option Allocator
  | _, s, none => some s
  | 0, _, some _ => none
  | fuel + 1, s, some f =>
      let item2 := findNext (s.pools .defer).addrTree f
      releaseLoop now fuel (releaseWhole now s f) item2

/-- The body of the loop of `MemoryCoalesceThread` at time `now`.  The mutexes it takes are not part
of the model. -/
def coalescePass (now : ℤ) (s : Allocator) : Option Allocator := do
  let tree := (s.pools .defer).addrTree
  let s ← coalesceLoop now tree.numNodes s (least tree)
  let tree := (s.pools .defer).addrTree
  releaseLoop now tree.numNodes s (least tree)

end HavokMud.Memory
