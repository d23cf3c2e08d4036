import HavokMud.Memory.Allocator

/-!
# Memory contents and interned strings

The functions of `memory.h` as clients call them.  On top of the allocator the state has the bytes
of memory and the tree of interned strings, whose items are the `MemoryString_t` records, named by
their addresses.  The text of a record is what the bytes at its `buf` spell; its `count` is kept
apart, and so are the links of its tree item while it is on the tree, since nothing but the tree
reads them.
-/

namespace HavokMud.Memory

open BinaryTree BTree SearchTree

/-! ## Bytes -/

/-- `memset( (void *)p, c, n )`. -/
def memset (mem : ℤ → UInt8) (p : ℤ) (c : UInt8) (n : ℤ) : ℤ → UInt8 :=
  fun a ↦ if p ≤ a ∧ a < p + n then c else mem a

@[simp]
theorem memset_zero (mem : ℤ → UInt8) (p : ℤ) (c : UInt8) : memset mem p c 0 = mem := by
  funext a
  exact if_neg (by omega)

/-- `memcpy( (void *)dst, (void *)src, n )`. -/
def memcpy (mem : ℤ → UInt8) (dst src n : ℤ) : ℤ → UInt8 :=
  fun a ↦ if dst ≤ a ∧ a < dst + n then mem (src + (a - dst)) else mem a

/-- The bytes of a list written from `p` on. -/
def writeBytes (mem : ℤ → UInt8) (p : ℤ) (bytes : List UInt8) : ℤ → UInt8 :=
  fun a ↦ if p ≤ a ∧ a < p + bytes.length then bytes.getD (a - p).toNat 0 else mem a

/-- The bytes from `p` on up to the first `NUL`, at most `n` of them. -/
def bytesUpTo (mem : ℤ → UInt8) : ℕ → ℤ → List UInt8
  | 0, _ => []
  | n + 1, p => if mem p = 0 then [] else mem p :: bytesUpTo mem n (p + 1)

/-- The number of addresses. -/
def addressSpace : ℕ :=
  2 ^ 64

/-- The string a pointer of type `char *` denotes. -/
def cstring (mem : ℤ → UInt8) (p : ℤ) : List UInt8 :=
  bytesUpTo mem addressSpace p

/-! ## The state -/

structure State where
  allocator : Allocator
  mem : ℤ → UInt8
  /-- `memoryStringTree`. -/
  stringTree : BinaryTree ℤ
  /-- The field `count` of the `MemoryString_t` at an address. -/
  count : ℤ → ℤ

/-- The state in which the first call to `memalloc` finds the program. -/
def initial : State :=
  ⟨meminit, fun _ ↦ 0, .nil, fun _ ↦ 0⟩

namespace State

/-- The text of the record at address `string`. -/
def textOf (pl : Platform) (s : State) (string : ℤ) : List UInt8 :=
  cstring s.mem (string + pl.bufOffset)

def setCount (s : State) (string count : ℤ) : State :=
  { s with count := Function.update s.count string count }

/-- The search of the string tree. -/
def findString (pl : Platform) (s : State) (text : List UInt8) : Option ℤ :=
  treeFind keyCompareString (s.textOf pl) text s.stringTree

end State

/-! ## The functions of `memory.h` -/

def memalloc (pl : Platform) (s : State) (size : ℕ) (blk : ℤ) : Option (State × ℤ) := do
  let (allocator, p) ← s.allocator.memalloc pl size blk
  some ({ s with allocator := allocator, mem := memset s.mem p 0 size }, p)

/-- `memfree` and the `memoryStringFree` it starts with.  A buffer is taken for an interned string
when its bytes spell one.  With its last link the record leaves the tree, and `memfree` is called
with the address of its tree item, whose links are `NULL` by then. -/
def memfreeLoop (pl : Platform) (now : ℤ) : ℕ → State → ℤ → Option State
  | 0, _, _ => none
  | fuel + 1, s, buffer =>
      let item := if buffer = 0 then none else s.findString pl (cstring s.mem buffer)
      match item with
      | some string =>
          let s := s.setCount string (toInt (s.count string - 1))
          if s.count string ≤ 0 then
            let s := { s with
              stringTree := treeRemove string s.stringTree
              mem := memset s.mem (string + pl.itemOffset) 0 8 }
            memfreeLoop pl now fuel s (string + pl.itemOffset)
          else some s
      | none => do
          let allocator ← s.allocator.memfree buffer now
          some { s with allocator := allocator }

/-- Every recursive call of `memfree` has one string less to find. -/
def memfree (pl : Platform) (s : State) (now buffer : ℤ) : Option State :=
  memfreeLoop pl now (s.stringTree.numNodes + 1) s buffer

/-- The answer to a request for no bytes is not defined; it is `NULL` here. -/
def memrealloc (pl : Platform) (s : State) (now ptr : ℤ) (size : ℕ) (blk : ℤ) :
    Option (State × ℤ) := do
  if ptr = 0 then memalloc pl s size blk
  else if size = 0 then
    let s ← memfree pl s now ptr
    some (s, 0)
  else
    let f ← memoryFragmentFindByAddr s.allocator .alloc ptr
    let oldSize := s.allocator.size f
    -- the comparisons are made in `size_t`
    if oldSize % 2 ^ 64 = size then some (s, ptr)
    else if size < oldSize % 2 ^ 64 then
      let (allocator, _) ← memoryFragmentSplit pl s.allocator f (toInt size)
      some ({ s with allocator := allocator }, ptr)
    else
      let (s, newptr) ← memalloc pl s size blk
      let s := { s with mem := memcpy s.mem newptr ptr (s.allocator.size f) }
      let s ← memfree pl s now ptr
      some (s, newptr)

def memstrdup (pl : Platform) (s : State) (orig : List UInt8) (blk : ℤ) : Option (State × ℤ) := do
  let (s, out) ← memalloc pl s (orig.length + 1) blk
  some ({ s with mem := writeBytes s.mem out (orig ++ [0]) }, out)

/-- Link to the string with the bytes `orig`. -/
def memstrlink (pl : Platform) (s : State) (orig : List UInt8) (blk : ℤ) : Option (State × ℤ) :=
  match s.findString pl orig with
  | some string => some (s.setCount string (toInt (s.count string + 1)), string + pl.bufOffset)
  | none => do
      let (s, string) ← memalloc pl s (pl.sizeofString + orig.length) blk
      let s := { s with mem := writeBytes s.mem (string + pl.bufOffset) (orig ++ [0]) }
      let s := s.setCount string 1
      let stringTree ← treeAdd keyCompareString (s.textOf pl) string s.stringTree
      some ({ s with stringTree := stringTree }, string + pl.bufOffset)

/-- The temporary copy `memstrnlink` makes of the first `len` bytes of `orig`. -/
def shortCopy (pl : Platform) (s : State) (orig : List UInt8) (len : ℕ) (blk : ℤ) :
    Option (State × ℤ) := do
  let (s, shortorig) ← memalloc pl s (len + 1) blk
  let s := { s with
    mem := writeBytes s.mem shortorig (orig.take len ++ List.replicate (len - orig.length) 0) }
  some ({ s with mem := writeBytes s.mem (shortorig + len) [0] }, shortorig)

/-- Link to the first `len` bytes of `orig`, by way of a temporary copy that is freed again. -/
def memstrnlink (pl : Platform) (s : State) (now : ℤ) (orig : List UInt8) (len : ℕ)
    (blk blk' : ℤ) : Option (State × ℤ) := do
  if len = 0 then some (s, 0)
  else
    let (s, shortorig) ← shortCopy pl s orig len blk
    let (s, retstring) ← memstrlink pl s (cstring s.mem shortorig) blk'
    let s ← memfree pl s now shortorig
    some (s, retstring)

/-- One pass of `MemoryCoalesceThread`. -/
def coalesce (s : State) (now : ℤ) : Option State := do
  let allocator ← coalescePass now s.allocator
  some { s with allocator := allocator }

end HavokMud.Memory
