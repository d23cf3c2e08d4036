import HavokMud.Memory.Requests

/-!
# The allocator among threads

`memalloc`, `memfree` and `memrealloc` run in any number of threads.  A step of a thread is what it
does under the mutexes of a pool, the body of `memoryFragmentAdd` or `memoryFragmentRemove` or one
search; what it does under the mutex of a list of records; or one statement of the code in between.
Between two steps of a thread any other thread may take steps.

The bytes of memory are not part of the model: a step that only moves bytes is left out.  There are
no interned strings.
-/

namespace HavokMud.Memory

open BinaryTree BTree SearchTree

/-! ## Where a thread is -/

/-- Who called `memalloc`: a client, or `memrealloc` for a buffer at `ptr` in fragment `old`. -/
inductive Job where
  | memalloc
  | grow (ptr : ℤ) (old : ℕ)

/-- Who called `memoryFragmentSplit`: `memoryFragmentFindBySize` on a pool, `memalloc` for a new
block, or `memrealloc`. -/
inductive Origin where
  | pool (pool : Pool) (job : Job)
  | fresh (job : Job)
  | shrink (ptr : ℤ)

/-- The place in the code a thread has come to, with the values of its variables. -/
inductive PC where
  | idle
  -- `memalloc`
  | select (pool : Pool) (size : ℕ) (job : Job)
  | malloc (size : ℕ) (job : Job)
  | getBlock (blk : ℤ) (size : ℕ) (job : Job)
  | initBlock (blk : ℤ) (b stage size : ℕ) (job : Job)
  | getFragment (blk : ℤ) (b size : ℕ) (job : Job)
  | initFragment (blk : ℤ) (b f stage size : ℕ) (job : Job)
  | linkFragment (b f size : ℕ) (job : Job)
  -- `memoryFragmentSplit`
  | checkSize (f size : ℕ) (origin : Origin)
  | checkPool (f size : ℕ) (origin : Origin)
  | loadPool (f size : ℕ) (origin : Origin)
  | remove (f : ℕ) (pool : Option Pool) (size : ℕ) (origin : Origin)
  | checkWhole (f size : ℕ) (origin : Origin)
  | getRemainder (f size : ℕ) (origin : Origin)
  | initRemainder (f remainder stage size : ℕ) (origin : Origin)
  | linkRemainder (f remainder size : ℕ) (origin : Origin)
  | cutEnd (f remainder size : ℕ) (origin : Origin)
  | cutSize (f remainder size : ℕ) (origin : Origin)
  | addRemainder (f remainder size : ℕ) (origin : Origin)
  | addFragment (f size : ℕ) (origin : Origin)
  | finish (f size : ℕ) (origin : Origin)
  -- `memrealloc`
  | compareSame (f : ℕ) (ptr : ℤ) (size : ℕ)
  | compareMore (f : ℕ) (ptr : ℤ) (size : ℕ)
  -- `memfree`
  | freeFind (ptr : ℤ) (old : ℕ)
  | freeRemove (f : ℕ)
  | freeStamp (f : ℕ)
  | freeAdd (f : ℕ)

/-- The allocator and where each thread is.  Beside them stand the regions `malloc` has returned,
and the pointers clients have got and not yet given up, with the sizes they asked for. -/
structure World where
  s : Allocator
  pc : ℕ → PC
  regions : List (ℤ × ℤ)
  live : List (ℤ × ℤ)

/-- All threads are idle. -/
def World.initial : World :=
  ⟨meminit, fun _ ↦ .idle, [], []⟩

/-! ## Steps -/

/-- The fields of a block record are written one by one. -/
def blockWrites (target : Block) : List (Block → Block) :=
  [fun block ↦ { block with fragmentList := target.fragmentList },
    fun block ↦ { block with size := target.size },
    fun block ↦ { block with start := target.start },
    fun block ↦ { block with endAddr := target.endAddr }]

/-- The fields of a fragment record are written one by one. -/
def fragmentWrites (target : Fragment) : List (Fragment → Fragment) :=
  [fun fragment ↦ { fragment with block := target.block },
    fun fragment ↦ { fragment with pool := target.pool },
    fun fragment ↦ { fragment with size := target.size },
    fun fragment ↦ { fragment with start := target.start },
    fun fragment ↦ { fragment with endAddr := target.endAddr },
    fun fragment ↦ { fragment with timestamp := target.timestamp }]

/-- The record of the fragment that is a whole new block. -/
def wholeBlock (b : ℕ) (blk reqSize : ℤ) : Fragment :=
  { block := b, pool := none, size := reqSize, start := blk, endAddr := blk + reqSize - 1,
    timestamp := 0 }

/-- Where `memalloc` goes on when the search of a pool has led to nothing. -/
def afterMiss (size : ℕ) (job : Job) : Pool → PC
  | .free => .select .defer size job
  | _ => .malloc size job

/-- Where `memoryFragmentFindBySize` goes on when it has unlocked the pool. -/
def afterSearch (pool : Pool) (size : ℕ) (job : Job) : Option ℕ → PC
  | some f => .checkSize f size (.pool pool job)
  | none => afterMiss size job pool

namespace World

variable (pl : Platform) (w : World) (t : ℕ)

/-- Thread `t` goes on at `pc`. -/
def goto (pc : PC) : World :=
  { w with pc := Function.update w.pc t pc }

/-- The allocator changes and thread `t` goes on at `pc`. -/
def edit (s : Allocator) (pc : PC) : World :=
  { w with s := s, pc := Function.update w.pc t pc }

/-- The fragment the search by size finds. -/
def found (pool : Pool) (size : ℕ) : Option ℕ :=
  if toInt size ≤ 0 then none else memoryFragmentSelect w.s pool (toInt size)

/-- `memfree` from the search on. -/
def startFree (p : ℤ) : World :=
  match memoryFragmentFindByAddr w.s .alloc p with
  | none => w.goto t .idle
  | some f => { w.goto t (.freeRemove f) with live := w.live.filter (·.1 ≠ p) }

/-- The step of thread `t` from a place in the code.  The input is the address `malloc` returns, or
the time of day. -/
def stepFrom (input : ℤ) : PC → Option World
  | .idle => none
  | .select pool size job => some (w.goto t (afterSearch pool size job (w.found pool size)))
  | .malloc size job =>
      let reqSize := pageRequest pl size
      some { w.edit t (w.s.countMalloc reqSize) (.getBlock input size job) with
        regions := (input, reqSize) :: w.regions }
  | .getBlock blk size job => do
      let (s, b) ← memoryBlockGetNew pl w.s
      some (w.edit t s (.initBlock blk b 0 size job))
  | .initBlock blk b stage size job =>
      let reqSize := pageRequest pl size
      match (blockWrites ⟨[], reqSize, blk, blk + reqSize - 1⟩)[stage]? with
      | some write => some (w.edit t (w.s.setBlock b (write (w.s.blocks b)))
          (.initBlock blk b (stage + 1) size job))
      | none => some (w.goto t (.getFragment blk b size job))
  | .getFragment blk b size job => do
      let (s, f) ← memoryFragmentGetNew pl w.s
      some (w.edit t s (.initFragment blk b f 0 size job))
  | .initFragment blk b f stage size job =>
      match (fragmentWrites (wholeBlock b blk (pageRequest pl size)))[stage]? with
      | some write => some (w.edit t (w.s.setFrag f (write (w.s.frags f)))
          (.initFragment blk b f (stage + 1) size job))
      | none => some (w.goto t (.linkFragment b f size job))
  | .linkFragment b f size job =>
      some (w.edit t (addToBlock w.s b f) (.checkSize f size (.fresh job)))
  | .checkSize f size origin =>
      if toInt size ≤ 0 ∨ (w.s.frags f).size < toInt size then
        match origin with
        | .pool pool job => some (w.goto t (afterMiss size job pool))
        -- `memalloc` follows the `NULL` it gets
        | .fresh _ => none
        | .shrink _ => some (w.goto t .idle)
      else some (w.goto t (.checkPool f size origin))
  | .checkPool f size origin =>
      if (w.s.frags f).pool = none then some (w.goto t (.checkWhole f size origin))
      else some (w.goto t (.loadPool f size origin))
  | .loadPool f size origin => some (w.goto t (.remove f (w.s.frags f).pool size origin))
  | .remove f pool size origin =>
      let s := match pool with
        | some pool => memoryFragmentRemove w.s pool f
        | none => w.s
      some (w.edit t s (.checkWhole f size origin))
  | .checkWhole f size origin =>
      if (w.s.frags f).size ≠ toInt size then some (w.goto t (.getRemainder f size origin))
      else some (w.goto t (.addFragment f size origin))
  | .getRemainder f size origin => do
      let (s, remainder) ← memoryFragmentGetNew pl w.s
      some (w.edit t s (.initRemainder f remainder 0 size origin))
  | .initRemainder f remainder stage size origin =>
      match (fragmentWrites (remainderOf w.s f (toInt size)))[stage]? with
      | some write => some (w.edit t (w.s.setFrag remainder (write (w.s.frags remainder)))
          (.initRemainder f remainder (stage + 1) size origin))
      | none => some (w.goto t (.linkRemainder f remainder size origin))
  | .linkRemainder f remainder size origin =>
      some (w.edit t (addToBlock w.s (w.s.frags f).block remainder)
        (.cutEnd f remainder size origin))
  | .cutEnd f remainder size origin =>
      let fragment := w.s.frags f
      some (w.edit t (w.s.setFrag f { fragment with endAddr := fragment.endAddr + toInt size })
        (.cutSize f remainder size origin))
  | .cutSize f remainder size origin =>
      some (w.edit t (w.s.setFrag f { w.s.frags f with size := toInt size })
        (.addRemainder f remainder size origin))
  | .addRemainder f remainder size origin => do
      let s ← memoryFragmentAdd w.s .free remainder
      some (w.edit t s (.addFragment f size origin))
  | .addFragment f size origin => do
      let s ← memoryFragmentAdd w.s .alloc f
      some (w.edit t s (.finish f size origin))
  | .finish f size origin =>
      let returned (next : PC) : World :=
        { w.edit t (w.s.addBytes size) next with live := (w.s.start f, (size : ℤ)) :: w.live }
      match origin with
      | .pool _ .memalloc | .fresh .memalloc => some (returned .idle)
      | .pool _ (.grow ptr old) | .fresh (.grow ptr old) => some (returned (.freeFind ptr old))
      | .shrink _ => some (w.goto t .idle)
  | .compareSame f ptr size =>
      if w.s.size f % 2 ^ 64 = size then some (w.goto t .idle)
      else some (w.goto t (.compareMore f ptr size))
  | .compareMore f ptr size =>
      if size < w.s.size f % 2 ^ 64 then
        some { w.goto t (.checkSize f size (.shrink ptr)) with
          live := (ptr, (size : ℤ)) :: w.live.filter (·.1 ≠ ptr) }
      else some (w.goto t (.select .free size (.grow ptr f)))
  | .freeFind ptr _ => some (w.startFree t ptr)
  | .freeRemove f =>
      some (w.edit t (memoryFragmentRemove (w.s.addBytes (-(w.s.size f))) .alloc f) (.freeStamp f))
  | .freeStamp f =>
      some (w.edit t (w.s.setFrag f { w.s.frags f with timestamp := input + timeDefer })
        (.freeAdd f))
  | .freeAdd f => do
      let s ← memoryFragmentAdd w.s .defer f
      some (w.edit t s .idle)

/-- The next step of thread `t`. -/
def advance (input : ℤ) : Option World :=
  w.stepFrom pl t input (w.pc t)

end World

/-- What a thread does next: enter one of the functions, or go on in the one it is in. -/
inductive Event where
  | memalloc (size : ℕ)
  | memfree (p : ℤ)
  | memrealloc (ptr : ℤ) (size : ℕ)
  | advance (input : ℤ)

namespace World

variable (pl : Platform) (w : World) (t : ℕ)

/-- Enter `memalloc`. -/
def callMemalloc (size : ℕ) : World :=
  if size = 0 then w else w.goto t (.select .free size .memalloc)

/-- One step of thread `t`.  A function that is entered goes on to its first search; `memrealloc` of
a pointer that nothing is known about follows a `NULL` pointer. -/
def step : Event → Option World
  | .advance input => w.advance pl t input
  | .memalloc size =>
      match w.pc t with
      | .idle => some (w.callMemalloc t size)
      | _ => none
  | .memfree p =>
      match w.pc t with
      | .idle => some (w.startFree t p)
      | _ => none
  | .memrealloc ptr size =>
      match w.pc t with
      | .idle =>
          if ptr = 0 then some (w.callMemalloc t size)
          else if size = 0 then some (w.startFree t ptr)
          else do
            let f ← memoryFragmentFindByAddr w.s .alloc ptr
            some (w.goto t (.compareSame f ptr size))
      | _ => none

end World

end HavokMud.Memory
