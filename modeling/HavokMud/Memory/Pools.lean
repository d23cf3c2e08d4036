import HavokMud.BTree.Keys
import HavokMud.BTree.Trees
import HavokMud.Records.FreeList

/-!
# Blocks, fragments and pools

`memory.c` cuts the blocks it gets from `malloc` into fragments.  A fragment is on the list of its
block and in one of three pools: free, handed out to a client, or freed and waiting for the
deferred coalescing.  A pool indexes its fragments by address, and by size with one tree of
fragments per size.

Addresses and sizes are integers; `NULL` is the address `0`.  `int` values are kept in range by
`toInt`, the counters of type `uint64` by their remainder.  Records are numbered.  The trees of a
pool are finite trees of fragment records, with the start of a fragment read from its record when
keys are compared, as the key pointers of the source do.
-/

namespace HavokMud.Memory

open BinaryTree BTree SearchTree Records

/-- What the compiler and the operating system fix: the page size and the layout of the records. -/
structure Platform where
  pageSize : ℕ
  sizeofBlock : ℕ
  sizeofFragment : ℕ
  sizeofString : ℕ
  itemOffset : ℕ
  bufOffset : ℕ
  pageSize_lt : pageSize < 2 ^ 31
  sizeofBlock_pos : 0 < sizeofBlock
  sizeofBlock_le : sizeofBlock ≤ pageSize
  sizeofFragment_pos : 0 < sizeofFragment
  sizeofFragment_le : sizeofFragment ≤ pageSize
  itemOffset_pos : 0 < itemOffset
  item_before_buf : itemOffset + 8 ≤ bufOffset
  buf_inside : bufOffset < sizeofString

/-- Linux on a 64-bit machine. -/
def lp64 : Platform where
  pageSize := 4096
  sizeofBlock := 112
  sizeofFragment := 208
  sizeofString := 80
  itemOffset := 8
  bufOffset := 72
  pageSize_lt := by norm_num
  sizeofBlock_pos := by norm_num
  sizeofBlock_le := by norm_num
  sizeofFragment_pos := by norm_num
  sizeofFragment_le := by norm_num
  itemOffset_pos := by norm_num
  item_before_buf := by norm_num
  buf_inside := by norm_num

/-- The value an `int` keeps of a wider one. -/
def toInt (n : ℤ) : ℤ :=
  Int.bmod n (2 ^ 32)

/-- `fragmentFreePool`, `fragmentAllocPool` and `fragmentDeferPool`. -/
inductive Pool where
  | free
  | alloc
  | defer
deriving DecidableEq

/-- `MemoryFragment_t`. -/
structure Fragment where
  block : ℕ
  pool : Option Pool
  size : ℤ
  start : ℤ
  /-- The field `end` of the source. -/
  endAddr : ℤ
  timestamp : ℤ
deriving DecidableEq

/-- `MemoryBlock_t`. -/
structure Block where
  fragmentList : List ℕ
  size : ℤ
  start : ℤ
  /-- The field `end` of the source. -/
  endAddr : ℤ
deriving DecidableEq

/-- `MemoryPool_t`.  The item of `sizeTree` with key `k` holds the tree `sizeItem k`. -/
structure MemoryPool where
  sizeTree : BinaryTree ℤ
  sizeItem : ℤ → BinaryTree ℕ
  addrTree : BinaryTree ℕ

/-- The static data of `memory.c` but for the interned strings. -/
structure Allocator where
  frags : ℕ → Fragment
  fragmentFreeList : FreeList
  blocks : ℕ → Block
  blockFreeList : FreeList
  blockUsedList : List ℕ
  pools : Pool → MemoryPool
  memAllocTrueBytes : ℤ
  memAllocBytes : ℤ
  memAllocBlocks : ℤ

/-- The state `meminit` leaves. -/
def meminit : Allocator where
  frags _ := ⟨0, none, 0, 0, 0, 0⟩
  fragmentFreeList := ⟨[], 0⟩
  blocks _ := ⟨[], 0, 0, 0⟩
  blockFreeList := ⟨[], 0⟩
  blockUsedList := []
  pools _ := ⟨.nil, fun _ ↦ .nil, .nil⟩
  memAllocTrueBytes := 0
  memAllocBytes := 0
  memAllocBlocks := 0

namespace Allocator

/-- The keys of address trees. -/
def start (s : Allocator) (f : ℕ) : ℤ :=
  (s.frags f).start

def size (s : Allocator) (f : ℕ) : ℤ :=
  (s.frags f).size

def setFrag (s : Allocator) (f : ℕ) (fragment : Fragment) : Allocator :=
  { s with frags := Function.update s.frags f fragment }

def setBlock (s : Allocator) (b : ℕ) (block : Block) : Allocator :=
  { s with blocks := Function.update s.blocks b block }

def setPool (s : Allocator) (pool : Pool) (trees : MemoryPool) : Allocator :=
  { s with pools := Function.update s.pools pool trees }

/-- Account for memory obtained from `malloc`. -/
def countMalloc (s : Allocator) (bytes : ℤ) : Allocator :=
  { s with
    memAllocTrueBytes := (s.memAllocTrueBytes + bytes) % 2 ^ 64
    memAllocBlocks := s.memAllocBlocks + 1 }

/-- `memAllocBytes += bytes`. -/
def addBytes (s : Allocator) (bytes : ℤ) : Allocator :=
  { s with memAllocBytes := (s.memAllocBytes + bytes) % 2 ^ 64 }

/-! ### What each edit leaves behind -/

section Edits

variable (s : Allocator) (f g b c : ℕ) (fragment : Fragment) (block : Block) (pool pool' : Pool)
  (trees : MemoryPool) (bytes : ℤ)

@[simp]
theorem frags_setFrag : (s.setFrag f fragment).frags g = if g = f then fragment else s.frags g :=
  Function.update_apply _ _ _ _

@[simp] theorem blocks_setFrag : (s.setFrag f fragment).blocks = s.blocks := rfl
@[simp] theorem pools_setFrag : (s.setFrag f fragment).pools = s.pools := rfl
@[simp] theorem blockUsedList_setFrag :
    (s.setFrag f fragment).blockUsedList = s.blockUsedList := rfl
@[simp] theorem blockFreeList_setFrag :
    (s.setFrag f fragment).blockFreeList = s.blockFreeList := rfl
@[simp] theorem fragmentFreeList_setFrag :
    (s.setFrag f fragment).fragmentFreeList = s.fragmentFreeList := rfl

@[simp]
theorem blocks_setBlock : (s.setBlock b block).blocks c = if c = b then block else s.blocks c :=
  Function.update_apply _ _ _ _

@[simp] theorem frags_setBlock : (s.setBlock b block).frags = s.frags := rfl
@[simp] theorem pools_setBlock : (s.setBlock b block).pools = s.pools := rfl
@[simp] theorem blockUsedList_setBlock : (s.setBlock b block).blockUsedList = s.blockUsedList := rfl
@[simp] theorem blockFreeList_setBlock : (s.setBlock b block).blockFreeList = s.blockFreeList := rfl
@[simp] theorem fragmentFreeList_setBlock :
    (s.setBlock b block).fragmentFreeList = s.fragmentFreeList := rfl

@[simp]
theorem pools_setPool :
    (s.setPool pool trees).pools pool' = if pool' = pool then trees else s.pools pool' :=
  Function.update_apply _ _ _ _

@[simp] theorem frags_setPool : (s.setPool pool trees).frags = s.frags := rfl
@[simp] theorem blocks_setPool : (s.setPool pool trees).blocks = s.blocks := rfl
@[simp] theorem blockUsedList_setPool :
    (s.setPool pool trees).blockUsedList = s.blockUsedList := rfl
@[simp] theorem blockFreeList_setPool :
    (s.setPool pool trees).blockFreeList = s.blockFreeList := rfl
@[simp] theorem fragmentFreeList_setPool :
    (s.setPool pool trees).fragmentFreeList = s.fragmentFreeList := rfl

@[simp] theorem frags_addBytes : (s.addBytes bytes).frags = s.frags := rfl
@[simp] theorem start_addBytes : (s.addBytes bytes).start = s.start := rfl
@[simp] theorem size_addBytes : (s.addBytes bytes).size = s.size := rfl
@[simp] theorem frags_countMalloc : (s.countMalloc bytes).frags = s.frags := rfl

end Edits

end Allocator

/-! ## Records -/

/-- The block record `memoryBlockGetNew` moves from the free to the used list. -/
def memoryBlockGetNew (pl : Platform) (s : Allocator) : Option (Allocator × ℕ) := do
  let (block, records, grown) ← s.blockFreeList.take (pl.pageSize / pl.sizeofBlock)
  let s := if grown then s.countMalloc pl.pageSize else s
  some ({ s with blockFreeList := records, blockUsedList := s.blockUsedList ++ [block] }, block)

/-- Give a block back to the operating system. -/
def memoryBlockRelease (s : Allocator) (b : ℕ) : Allocator :=
  let block := s.blocks b
  let s := { s with
    blockUsedList := s.blockUsedList.erase b
    blockFreeList := s.blockFreeList.put b }
  if block.start ≠ 0 then
    { s with
      memAllocBlocks := s.memAllocBlocks - 1
      memAllocTrueBytes := (s.memAllocTrueBytes - block.size) % 2 ^ 64
      blocks := Function.update s.blocks b { block with start := 0 } }
  else s

/-- The list of fragments in use, which nothing reads, is left out. -/
def memoryFragmentGetNew (pl : Platform) (s : Allocator) : Option (Allocator × ℕ) := do
  let (fragment, records, grown) ← s.fragmentFreeList.take (pl.pageSize / pl.sizeofFragment)
  let s := if grown then s.countMalloc pl.pageSize else s
  some ({ s with fragmentFreeList := records }, fragment)

def memoryFragmentRelease (s : Allocator) (f : ℕ) : Allocator :=
  let b := (s.frags f).block
  let s := s.setBlock b { s.blocks b with fragmentList := (s.blocks b).fragmentList.erase f }
  { s with fragmentFreeList := s.fragmentFreeList.put f }

/-- `LinkedListAdd( &block->fragmentList, fragment, UNLOCKED, AT_TAIL )`. -/
def addToBlock (s : Allocator) (b f : ℕ) : Allocator :=
  s.setBlock b { s.blocks b with fragmentList := (s.blocks b).fragmentList ++ [f] }

/-! ## Pools -/

/-- The item of the size tree for a size, created with an empty tree when there is none. -/
def sizeItemFor (trees : MemoryPool) (size : ℤ) :
    Option (BinaryTree ℤ × ℤ × BinaryTree ℕ) :=
  match treeFind keyCompareInt id size trees.sizeTree with
  | some k => some (trees.sizeTree, k, trees.sizeItem k)
  | none => do
      let sizeTree ← treeAdd keyCompareInt id size trees.sizeTree
      some (sizeTree, size, .nil)

def memoryFragmentAdd (s : Allocator) (pool : Pool) (f : ℕ) : Option Allocator := do
  let trees := s.pools pool
  let (sizeTree, k, tree) ← sizeItemFor trees (s.size f)
  let tree ← treeAdd keyComparePointer s.start f tree
  let addrTree ← treeAdd keyComparePointer s.start f trees.addrTree
  let s := s.setPool pool ⟨sizeTree, Function.update trees.sizeItem k tree, addrTree⟩
  some (s.setFrag f { s.frags f with pool := some pool })

/-- The tree of a size item without the fragment found at an address. -/
def withoutFound (s : Allocator) (address : ℤ) (tree : BinaryTree ℕ) : BinaryTree ℕ :=
  match treeFind keyComparePointer s.start address tree with
  | some g => treeRemove g tree
  | none => tree

/-- The size index without the fragment: its item is dropped with its last fragment. -/
def dropFromSizes (s : Allocator) (trees : MemoryPool) (size address : ℤ) : MemoryPool :=
  match treeFind keyCompareInt id size trees.sizeTree with
  | none => trees
  | some k =>
      let tree := withoutFound s address (trees.sizeItem k)
      if tree.numNodes = 0 then { trees with sizeTree := treeRemove k trees.sizeTree }
      else { trees with sizeItem := Function.update trees.sizeItem k tree }

/-- A fragment of another pool is left alone. -/
def memoryFragmentRemove (s : Allocator) (pool : Pool) (f : ℕ) : Allocator :=
  if (s.frags f).pool ≠ some pool then s
  else
    let trees := dropFromSizes s (s.pools pool) (s.size f) (s.start f)
    let trees := { trees with addrTree := withoutFound s (s.start f) trees.addrTree }
    (s.setPool pool trees).setFrag f { s.frags f with pool := none }

/-- `memoryFragmentFindBySize` up to the point where it unlocks the pool: the fragment at the lowest
address among those of the size chosen in the size tree. -/
def memoryFragmentSelect (s : Allocator) (pool : Pool) (size : ℤ) : Option ℕ := do
  let k ← treeFindLeastFrom keyCompareInt id size (s.pools pool).sizeTree
  least ((s.pools pool).sizeItem k)

def memoryFragmentFindByAddr (s : Allocator) (pool : Pool) (buffer : ℤ) : Option ℕ :=
  if buffer = 0 then none else treeFind keyComparePointer s.start buffer (s.pools pool).addrTree

end HavokMud.Memory
