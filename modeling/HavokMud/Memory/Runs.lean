import HavokMud.Memory.Coalesce
import HavokMud.Memory.Strings

/-!
# Runs of the allocator

Any single-threaded sequence of calls to the functions of `memory.h` and of coalescing passes, at
times that do not decrease, keeps the invariant of the allocator, as long as requested sizes,
rounded up to pages, fit in an `int` and `malloc` returns regions that meet no block in use.
-/

namespace HavokMud.Memory

open BinaryTree BTree SearchTree HavokMud.Interval

/-- A call, with the addresses `malloc` would return in it.  `write` is a client that writes into
memory. -/
inductive Op where
  | memalloc (size : ℕ) (blk : ℤ)
  | memfree (buffer : ℤ)
  | memrealloc (ptr : ℤ) (size : ℕ) (blk : ℤ)
  | memstrdup (orig : List UInt8) (blk : ℤ)
  | memstrlink (orig : List UInt8) (blk : ℤ)
  | memstrnlink (orig : List UInt8) (len : ℕ) (blk blk' : ℤ)
  | write (p : ℤ) (bytes : List UInt8)
  | coalesce

/-- The call at time `now`, with the pointer it returns. -/
def Op.step (pl : Platform) (now : ℤ) (s : State) : Op → Option (State × ℤ)
  | .memalloc size blk => Memory.memalloc pl s size blk
  | .memfree buffer => do some (← Memory.memfree pl s now buffer, 0)
  | .memrealloc ptr size blk => Memory.memrealloc pl s now ptr size blk
  | .memstrdup orig blk => Memory.memstrdup pl s orig blk
  | .memstrlink orig blk => Memory.memstrlink pl s orig blk
  | .memstrnlink orig len blk blk' => Memory.memstrnlink pl s now orig len blk blk'
  | .write p bytes => some ({ s with mem := writeBytes s.mem p bytes }, 0)
  | .coalesce => do some (← Memory.coalesce s now, 0)

/-- What a call to `memalloc` relies on: the size fits, and `malloc` returns a fresh region. -/
def Serves (pl : Platform) (s : State) (size : ℕ) (blk : ℤ) : Prop :=
  0 < size → Fits pl size ∧ MallocFresh pl s.allocator size blk

instance (pl : Platform) (s : State) (size : ℕ) (blk : ℤ) : Decidable (Serves pl s size blk) :=
  inferInstanceAs (Decidable (_ → _))

/-- What a call relies on. -/
def Op.Sane (pl : Platform) (s : State) : Op → Prop
  | .memalloc size blk => Serves pl s size blk
  | .memrealloc ptr size blk =>
      (0 < size → Fits pl size) ∧ (ptr = 0 → Serves pl s size blk) ∧
        ∀ f, memoryFragmentFindByAddr s.allocator .alloc ptr = some f →
          s.allocator.size f < size → Serves pl s size blk
  | .memstrdup orig blk => Serves pl s (orig.length + 1) blk
  | .memstrlink orig blk =>
      s.findString pl orig = none → Serves pl s (pl.sizeofString + orig.length) blk
  | .memstrnlink orig len blk blk' =>
      0 < len → Serves pl s (len + 1) blk ∧
        ∀ s₁ p, shortCopy pl s orig len blk = some (s₁, p) →
          s₁.findString pl (cstring s₁.mem p) = none →
            Serves pl s₁ (pl.sizeofString + (cstring s₁.mem p).length) blk'
  | .memfree _ | .write _ _ | .coalesce => True

instance Op.decidableSane (pl : Platform) (s : State) : (op : Op) → Decidable (op.Sane pl s)
  | .memalloc size blk => inferInstanceAs (Decidable (Serves pl s size blk))
  | .memrealloc ptr size blk => inferInstanceAs (Decidable ((0 < size → Fits pl size) ∧
      (ptr = 0 → Serves pl s size blk) ∧
        ∀ f ∈ memoryFragmentFindByAddr s.allocator .alloc ptr,
          s.allocator.size f < size → Serves pl s size blk))
  | .memstrdup orig blk => inferInstanceAs (Decidable (Serves pl s (orig.length + 1) blk))
  | .memstrlink orig blk => inferInstanceAs (Decidable (s.findString pl orig = none →
      Serves pl s (pl.sizeofString + orig.length) blk))
  | .memstrnlink orig len blk blk' => decidable_of_iff (0 < len → Serves pl s (len + 1) blk ∧
      ∀ r ∈ shortCopy pl s orig len blk,
        r.1.findString pl (cstring r.1.mem r.2) = none →
          Serves pl r.1 (pl.sizeofString + (cstring r.1.mem r.2).length) blk')
      (by simp only [Op.Sane, Prod.forall, Option.mem_def])
  | .memfree _ | .write _ _ | .coalesce => isTrue trivial

/-- The states a run can reach, with the time of its last call. -/
inductive Reachable (pl : Platform) : ℤ → State → Prop where
  | start (now : ℤ) : Reachable pl now initial
  | step {now later : ℤ} {s s' : State} {op : Op} {result : ℤ} (hreach : Reachable pl now s)
      (hle : now ≤ later) (hsane : op.Sane pl s) (hstep : op.step pl later s = some (s', result)) :
      Reachable pl later s'

variable {pl : Platform} {now : ℤ} {s s' : State}

/-! ## The invariant of a run -/

/-- `memalloc` in terms of the allocator. -/
theorem memalloc_eq_some {size : ℕ} {blk p : ℤ} :
    memalloc pl s size blk = some (s', p) ↔ ∃ a, s.allocator.memalloc pl size blk = some (a, p) ∧
      s' = { s with allocator := a, mem := memset s.mem p 0 size } := by
  simp only [memalloc, Option.bind_eq_bind, Option.bind_eq_some_iff, Prod.exists, Option.some.injEq,
    Prod.mk.injEq]
  constructor
  · rintro ⟨a, q, hrun, rfl, rfl⟩
    exact ⟨a, hrun, rfl⟩
  · rintro ⟨a, hrun, rfl⟩
    exact ⟨a, p, hrun, rfl, rfl⟩

theorem Inv.memalloc_state (hinv : Inv now [] s.allocator) {size : ℕ} {blk p : ℤ}
    (hserves : Serves pl s size blk) (hrun : Memory.memalloc pl s size blk = some (s', p)) :
    Inv now [] s'.allocator := by
  obtain ⟨a, ha, rfl⟩ := memalloc_eq_some.mp hrun
  rcases Nat.eq_zero_or_pos size with rfl | hpos
  · obtain ⟨rfl, -⟩ : s.allocator = a ∧ 0 = p := by simpa [Allocator.memalloc] using ha
    exact hinv
  · obtain ⟨hfits, hfresh⟩ := hserves hpos
    obtain ⟨a', q, hrun', hinv', -⟩ := hinv.memalloc pl hpos hfits hfresh
    obtain ⟨rfl, -⟩ : a' = a ∧ q = p := by simpa [hrun'] using ha
    exact hinv'

/-- Of the allocator, `memfree` touches at most the fragment it frees. -/
theorem Inv.memfreeLoop (hinv : Inv now [] s.allocator) {fuel : ℕ} {buffer : ℤ}
    (hrun : Memory.memfreeLoop pl now fuel s buffer = some s') : Inv now [] s'.allocator := by
  induction fuel generalizing s buffer with
  | zero => simp [Memory.memfreeLoop] at hrun
  | succ fuel ih =>
      rw [Memory.memfreeLoop] at hrun
      dsimp only at hrun
      split at hrun
      · split_ifs at hrun
        · refine ih ?_ hrun
          exact hinv
        · obtain rfl := Option.some.inj hrun
          exact hinv
      · obtain ⟨a, ha, hinv'⟩ := hinv.memfree_total buffer
        simp only [ha, Option.bind_eq_bind, Option.bind_some, Option.some.injEq] at hrun
        obtain rfl := hrun
        exact hinv'

theorem Inv.memstrlink_state (hinv : Inv now [] s.allocator) {orig : List UInt8} {blk p : ℤ}
    (hserves : s.findString pl orig = none → Serves pl s (pl.sizeofString + orig.length) blk)
    (hrun : memstrlink pl s orig blk = some (s', p)) : Inv now [] s'.allocator := by
  rw [memstrlink] at hrun
  split at hrun
  · obtain ⟨rfl, -⟩ := Prod.mk.inj (Option.some.inj hrun)
    exact hinv
  · rename_i hfind
    simp only [Option.bind_eq_bind, Option.bind_eq_some_iff, Prod.exists, Option.some.injEq,
      Prod.mk.injEq] at hrun
    obtain ⟨s₁, string, halloc, tree, -, rfl, -⟩ := hrun
    have hinv₁ := hinv.memalloc_state (hserves hfind) halloc
    exact hinv₁

theorem Inv.shortCopy_state (hinv : Inv now [] s.allocator) {orig : List UInt8} {len : ℕ}
    {blk p : ℤ} (hserves : Serves pl s (len + 1) blk)
    (hrun : shortCopy pl s orig len blk = some (s', p)) : Inv now [] s'.allocator := by
  simp only [shortCopy, Option.bind_eq_bind, Option.bind_eq_some_iff, Prod.exists,
    Option.some.injEq,
    Prod.mk.injEq] at hrun
  obtain ⟨s₁, q, halloc, rfl, -⟩ := hrun
  have hinv₁ := hinv.memalloc_state hserves halloc
  exact hinv₁

theorem Inv.memrealloc_state (hinv : Inv now [] s.allocator) {ptr p blk : ℤ} {size : ℕ}
    (hsane : (Op.memrealloc ptr size blk).Sane pl s)
    (hrun : memrealloc pl s now ptr size blk = some (s', p)) : Inv now [] s'.allocator := by
  obtain ⟨hfits, hnull, hgrow⟩ := hsane
  rw [memrealloc] at hrun
  split_ifs at hrun with hptr hsize
  · exact hinv.memalloc_state (hnull hptr) hrun
  · simp only [Option.bind_eq_bind, Option.bind_eq_some_iff, Option.some.injEq,
      Prod.mk.injEq] at hrun
    obtain ⟨s₁, hfree, rfl, -⟩ := hrun
    exact hinv.memfreeLoop hfree
  · simp only [Option.bind_eq_bind, Option.bind_eq_some_iff] at hrun
    obtain ⟨f, hfind, hrun⟩ := hrun
    obtain ⟨hpool, -⟩ := hinv.pool_of_found hfind
    have hord := hinv.ordered_of_pool f hpool
    have hmod : s.allocator.size f % 2 ^ 64 = s.allocator.size f :=
      Int.emod_eq_of_lt hord.size_nonneg (hord.size_lt.trans (by norm_num))
    have hpos : 0 < size := Nat.pos_of_ne_zero hsize
    rw [hmod] at hrun
    split_ifs at hrun with heq hlt
    · obtain ⟨rfl, -⟩ := Prod.mk.inj (Option.some.inj hrun)
      exact hinv
    · obtain ⟨a, hsplit, hinv', -⟩ :=
        hinv.split pl hpool (by omega : (0 : ℤ) < size) hlt.le
      simp only [(hfits hpos).toInt_eq, hsplit, Option.bind_some, Option.some.injEq,
        Prod.mk.injEq] at hrun
      obtain ⟨rfl, -⟩ := hrun
      exact hinv'
    · simp only [Option.bind_eq_some_iff, Prod.exists, Option.some.injEq, Prod.mk.injEq] at hrun
      obtain ⟨s₁, q, halloc, s₂, hfree, rfl, -⟩ := hrun
      have hinv₁ := hinv.memalloc_state (hgrow f hfind (by omega)) halloc
      refine Inv.memfreeLoop ?_ hfree
      exact hinv₁

/-- One call. -/
theorem Inv.step (hinv : Inv now [] s.allocator) {op : Op} (hsane : op.Sane pl s) {result : ℤ}
    (hstep : op.step pl now s = some (s', result)) : Inv now [] s'.allocator := by
  cases op with
  | memalloc size blk => exact hinv.memalloc_state hsane hstep
  | memfree buffer =>
      simp only [Op.step, Option.bind_eq_bind, Option.bind_eq_some_iff, Option.some.injEq,
        Prod.mk.injEq] at hstep
      obtain ⟨s₁, hfree, rfl, -⟩ := hstep
      exact hinv.memfreeLoop hfree
  | memrealloc ptr size blk => exact hinv.memrealloc_state hsane hstep
  | memstrdup orig blk =>
      simp only [Op.step, Memory.memstrdup, Option.bind_eq_bind, Option.bind_eq_some_iff,
        Prod.exists,
        Option.some.injEq, Prod.mk.injEq] at hstep
      obtain ⟨s₁, q, halloc, rfl, -⟩ := hstep
      have hinv₁ := hinv.memalloc_state hsane halloc
      exact hinv₁
  | memstrlink orig blk => exact hinv.memstrlink_state hsane hstep
  | memstrnlink orig len blk blk' =>
      simp only [Op.step, Memory.memstrnlink] at hstep
      split_ifs at hstep with hlen
      · obtain ⟨rfl, -⟩ := Prod.mk.inj (Option.some.inj hstep)
        exact hinv
      · simp only [Option.bind_eq_bind, Option.bind_eq_some_iff, Prod.exists, Option.some.injEq,
          Prod.mk.injEq] at hstep
        obtain ⟨s₁, p, hcopy, s₂, q, hlink, s₃, hfree, rfl, -⟩ := hstep
        obtain ⟨hserves, hserves'⟩ := hsane (Nat.pos_of_ne_zero hlen)
        have hinv₁ := hinv.shortCopy_state hserves hcopy
        have hinv₂ := hinv₁.memstrlink_state (hserves' s₁ p hcopy) hlink
        exact hinv₂.memfreeLoop hfree
  | write p bytes =>
      obtain ⟨rfl, -⟩ := Prod.mk.inj (Option.some.inj hstep)
      exact hinv
  | coalesce =>
      obtain ⟨a, hpass, hinv', -⟩ := hinv.coalescePass now
      simp only [Op.step, Memory.coalesce, hpass, Option.bind_eq_bind, Option.bind_some,
        Option.some.injEq, Prod.mk.injEq] at hstep
      obtain ⟨rfl, -⟩ := hstep
      exact hinv'

/-- Every state of a run satisfies the invariant. -/
theorem Reachable.inv (hreach : Reachable pl now s) : Inv now [] s.allocator := by
  induction hreach with
  | start now => exact inv_meminit now
  | step hreach hle hsane hstep ih => exact (ih.mono hle).step hsane hstep

end HavokMud.Memory
