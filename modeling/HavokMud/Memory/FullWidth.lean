import HavokMud.Memory.Clients

/-!
# Sizes wider than an `int`

`memalloc` takes a `size_t`, but the fragments are chosen and cut by the `int` that is left of it.
A request that an `int` does not hold is served with less memory, or ends the program.
-/

namespace HavokMud.Memory

open BinaryTree BTree SearchTree HavokMud.Interval

/-- `memcalloc`.  The product is a `size_t`. -/
def memcalloc (pl : Platform) (s : State) (nmemb size : ℕ) (blk : ℤ) : Option (State × ℤ) :=
  memalloc pl s (nmemb * size % 2 ^ 64) blk

/-- At `p` so many bytes are handed out, and they lie in a block that `malloc` returned. -/
def Provides (s : Allocator) (p : ℤ) (bytes : ℕ) : Prop :=
  ∃ n, (p, n) ∈ handed s ∧ bytes ≤ n ∧
    ∃ b ∈ s.blockUsedList, (s.blocks b).start ≤ p ∧ p + n ≤ (s.blocks b).start + (s.blocks b).size

/-- A call returns, and it returns `NULL` or so many bytes.  It does not return from clearing a
positive number of bytes at `NULL`. -/
def Honours (cleared bytes : ℕ) (call : Option (State × ℤ)) : Prop :=
  ∃ s p, call = some (s, p) ∧ (cleared = 0 ∧ p = 0 ∨ p ≠ 0 ∧ Provides s.allocator p bytes)

/-- An `int` holds the size, and either a fragment that is free or deferred has it, or an `int` also
holds the size rounded up to whole pages and `malloc` does not fail. -/
def Servable (pl : Platform) (s : Allocator) (size : ℕ) (blk : ℤ) : Prop :=
  size < 2 ^ 31 ∧ ((∃ f, ((s.frags f).pool = some .free ∨ (s.frags f).pool = some .defer) ∧
    size ≤ s.size f) ∨ Fits pl size ∧ blk ≠ 0)

variable {pl : Platform} {s s' : Allocator} {now : ℤ} {held : List ℕ} {f g : ℕ} {pool : Pool}
  {size blk : ℤ}

/-! ## Starts of fragments -/

theorem start_memoryFragmentAdd (hrun : memoryFragmentAdd s pool f = some s') :
    s'.start = s.start := by
  simp only [memoryFragmentAdd, Option.bind_eq_bind, Option.bind_eq_some_iff, Prod.exists,
    Option.some.injEq] at hrun
  obtain ⟨sizeTree, k, tree, -, tree', -, addrTree, -, rfl⟩ := hrun
  funext g
  by_cases hg : g = f <;> simp [Allocator.start, hg]

theorem start_memoryFragmentRemove (s : Allocator) (pool : Pool) (f : ℕ) :
    (memoryFragmentRemove s pool f).start = s.start := by
  unfold memoryFragmentRemove
  split_ifs
  · rfl
  · funext g
    by_cases hg : g = f <;> simp [Allocator.start, hg]

theorem frags_memoryFragmentGetNew (hrun : memoryFragmentGetNew pl s = some (s', f)) :
    s'.frags = s.frags := by
  simp only [memoryFragmentGetNew, Option.bind_eq_bind, Option.bind_eq_some_iff, Prod.exists,
    Option.some.injEq, Prod.mk.injEq] at hrun
  obtain ⟨r, records, grown, -, rfl, -⟩ := hrun
  cases grown <;> rfl

theorem start_carveRemainder (hrun : carveRemainder pl s f size = some (s', g)) :
    s'.start f = s.start f := by
  simp only [carveRemainder, Option.bind_eq_bind, Option.bind_eq_some_iff, Prod.exists,
    Option.some.injEq, Prod.mk.injEq] at hrun
  obtain ⟨s₁, r, hnew, rfl, -⟩ := hrun
  simp [Allocator.start, frags_memoryFragmentGetNew hnew]

theorem start_handOut (hrun : handOut pl s f size = some s') : s'.start f = s.start f := by
  simp only [handOut, Option.bind_eq_bind] at hrun
  split_ifs at hrun
  · simp only [Option.bind_eq_some_iff, Prod.exists] at hrun
    obtain ⟨s₁, r, hcarve, s₂, hadd, hadd'⟩ := hrun
    rw [start_memoryFragmentAdd hadd', start_memoryFragmentAdd hadd, start_carveRemainder hcarve]
  · exact congrFun (start_memoryFragmentAdd hrun) f

/-- What `memoryFragmentSplit` hands out starts where the fragment does. -/
theorem start_memoryFragmentSplit (hrun : memoryFragmentSplit pl s f size = some (s', some g)) :
    g = f ∧ 0 < size ∧ size ≤ s.size f ∧ s'.start g = s.start f := by
  unfold memoryFragmentSplit at hrun
  split_ifs at hrun with hguard
  · cases hrun
  · simp only [Option.bind_eq_bind, Option.bind_eq_some_iff, Option.some.injEq,
      Prod.mk.injEq] at hrun
    obtain ⟨s₁, hout, rfl, rfl⟩ := hrun
    rw [not_or, not_le, not_lt] at hguard
    refine ⟨rfl, hguard.1, hguard.2, ?_⟩
    rw [start_handOut hout]
    cases (s.frags f).pool with
    | none => rfl
    | some pool => exact congrFun (start_memoryFragmentRemove s pool f) f

/-- A new block is one fragment of its size. -/
theorem newBlock_fragment (hrun : newBlock pl s size blk = some (s', f)) :
    s'.start f = blk ∧ s'.size f = size := by
  simp only [newBlock, Option.bind_eq_bind, Option.bind_eq_some_iff, Prod.exists,
    Option.some.injEq, Prod.mk.injEq] at hrun
  obtain ⟨s₁, b, -, s₂, r, -, rfl, rfl⟩ := hrun
  simp [Allocator.start, Allocator.size, addToBlock]

/-! ## Sizes -/

theorem toInt_lt (n : ℤ) : toInt n < 2 ^ 31 := by
  have hlt := Int.bmod_lt (x := n) (m := 2 ^ 32) (by norm_num)
  unfold toInt
  omega

theorem pageRequest_eq (pl : Platform) (q : ℕ) : pageRequest pl q = toInt (roundUp pl q) := by
  unfold pageRequest roundUp toInt
  rw [Int.bmod_mul_bmod, Nat.cast_mul]

theorem roundUp_lt (pl : Platform) (q : ℕ) : roundUp pl q < q + pl.pageSize := by
  have hpage := pageSize_pos pl
  have hdiv := Nat.div_add_mod q pl.pageSize
  rw [roundUp, Nat.add_mul, Nat.mul_comm]
  split_ifs with hzero <;> omega

/-- A number of pages that is not less than the size of a small request fits. -/
theorem fits_of_le_pageRequest {q : ℕ} (hpos : 0 < q) (hlt : q < 2 ^ 31)
    (hle : (q : ℤ) ≤ pageRequest pl q) : Fits pl q := by
  have hround := roundUp_lt pl q
  have hpage := pl.pageSize_lt
  rw [pageRequest_eq, toInt, Int.bmod_def] at hle
  unfold Fits
  split_ifs at hle <;> omega

/-- A fragment that is found by size is large enough before it is cut. -/
theorem Inv.exists_of_findBySize (hinv : Inv now held s) {n : ℤ} (hlt : n < 2 ^ 31)
    (hrun : memoryFragmentFindBySize pl s pool n = some (s', some f)) :
    ∃ g, (s.frags g).pool = some pool ∧ n ≤ s.size g := by
  unfold memoryFragmentFindBySize at hrun
  split_ifs at hrun with hpos
  · cases hrun
  · cases hsel : memoryFragmentSelect s pool n with
    | none => simp [hsel] at hrun
    | some g => exact ⟨g, (hinv.index pool).select_spec hinv.ordered_of_pool (not_le.mp hpos).le
        hlt hsel⟩

/-! ## Requests -/

/-- The searches of `memalloc` and the cut of a new block, with the sizes that are left of the
request. -/
def fragmentFor (pl : Platform) (s : Allocator) (size reqSize blk : ℤ) :
    Option (Allocator × ℕ) := do
  let (s, found) ← memoryFragmentFindBySize pl s .free size
  if let some f := found then return (s, f)
  let (s, found) ← memoryFragmentFindBySize pl s .defer size
  if let some f := found then return (s, f)
  let (s, f) ← newBlock pl s reqSize blk
  let (s, found) ← memoryFragmentSplit pl s f size
  let f ← found
  return (s, f)

section Fragments

variable {a : Allocator} {reqSize : ℤ}

theorem fragmentFor_of_free (hfree : memoryFragmentFindBySize pl s .free size = some (a, some f)) :
    fragmentFor pl s size reqSize blk = some (a, f) := by
  simp [fragmentFor, hfree]

theorem fragmentFor_of_defer (hfree : memoryFragmentFindBySize pl s .free size = some (s, none))
    (hdefer : memoryFragmentFindBySize pl s .defer size = some (a, some f)) :
    fragmentFor pl s size reqSize blk = some (a, f) := by
  simp [fragmentFor, hfree, hdefer]

/-- Where no fragment is found one is cut from a new block. -/
theorem fragmentFor_of_miss (hfree : memoryFragmentFindBySize pl s .free size = some (s, none))
    (hdefer : memoryFragmentFindBySize pl s .defer size = some (s, none)) :
    fragmentFor pl s size reqSize blk = some (a, f) ↔ ∃ s₁,
      newBlock pl s reqSize blk = some (s₁, f) ∧
        memoryFragmentSplit pl s₁ f size = some (a, some f) := by
  simp only [fragmentFor, hfree, hdefer, Option.bind_eq_bind, Option.bind_some]
  constructor
  · intro hrun
    simp only [Option.bind_eq_some_iff, Prod.exists] at hrun
    obtain ⟨s₁, g, hnew, s₂, found, hsplit, g', hfound, hpair⟩ := hrun
    obtain ⟨rfl, rfl⟩ := Prod.mk.inj (Option.some.inj hpair)
    rw [hfound] at hsplit
    obtain ⟨rfl, -⟩ := start_memoryFragmentSplit hsplit
    exact ⟨s₁, hnew, hsplit⟩
  · rintro ⟨s₁, hnew, hsplit⟩
    simp [hnew, hsplit]

end Fragments

section Requests

variable {s : State} {q need : ℕ}

theorem memalloc_of_none (hq : 0 < q) (hnone : memallocFragment pl s.allocator q blk = none) :
    memalloc pl s q blk = none := by
  simp [memalloc, Allocator.memalloc, hq.ne', hnone]

theorem memalloc_of_some (hq : 0 < q) {a : Allocator}
    (hsome : memallocFragment pl s.allocator q blk = some (a, f)) :
    memalloc pl s q blk = some ({ s with
      allocator := a.addBytes q, mem := memset s.mem (a.start f) 0 q }, a.start f) := by
  simp [memalloc, Allocator.memalloc, hq.ne', hsome]

/-- A request that was served with the `int` left of its size. -/
theorem honours_iff_of_handed (hq : 0 < q) (hneed : need = q ∨ 2 ^ 64 ≤ need) {a : Allocator}
    (hrun : memallocFragment pl s.allocator q blk = some (a, f)) (hinv' : Inv now [] a)
    (hafter : (a.frags f).pool = some .alloc) (hsize : a.size f = toInt q) :
    Honours q need (memalloc pl s q blk) ↔ need = q ∧ q < 2 ^ 31 := by
  have hu := hinv'.inUse_of_pool hafter
  have hpos := hinv'.start_pos_of_inUse hu
  rw [memalloc_of_some hq hrun]
  constructor
  · rintro ⟨s', p, hcall, hzero | ⟨-, n, hn, hle, -⟩⟩
    · exact absurd hzero.1 hq.ne'
    · obtain ⟨rfl, rfl⟩ := Prod.mk.inj (Option.some.inj hcall)
      have hlt := (hinv'.handed_inside hn).2.2.1
      simp only at hlt
      omega
  · rintro ⟨rfl, hlt⟩
    have hint : toInt (need : ℤ) = need := toInt_eq_self (by omega) (by omega)
    refine ⟨_, _, rfl, .inr ⟨hpos.ne', a.size f, hinv'.mem_handed.mpr ⟨f, hafter, rfl⟩, ?_, ?_⟩⟩
    · rw [hsize, hint]
    · exact ⟨(a.frags f).block, hu.1, hinv'.inside hu⟩

/-- A request that `malloc` fails, or whose fragment is too small. -/
theorem not_honours_of_start (hq : 0 < q)
    (hstart : ∀ a f, memallocFragment pl s.allocator q blk = some (a, f) → a.start f = 0) :
    ¬ Honours q need (memalloc pl s q blk) := by
  rintro ⟨s', p, hcall, hzero | ⟨hne, -⟩⟩
  · exact hq.ne' hzero.1
  · cases hrun : memallocFragment pl s.allocator q blk with
    | none => simp [memalloc_of_none hq hrun] at hcall
    | some r =>
        rw [memalloc_of_some hq hrun] at hcall
        obtain ⟨-, rfl⟩ := Prod.mk.inj (Option.some.inj hcall)
        exact hne (hstart r.1 r.2 hrun)

/-- A request is honoured exactly if its size is not cut short and can be served. -/
theorem honours_iff (hinv : Inv now [] s.allocator) (hneed : need = q ∨ 2 ^ 64 ≤ need)
    (hmalloc : blk = 0 ∨ MallocFresh pl s.allocator q blk) :
    Honours q need (memalloc pl s q blk) ↔
      q = 0 ∨ need = q ∧ Servable pl s.allocator q blk := by
  rcases Nat.eq_zero_or_pos q with rfl | hq
  · exact iff_of_true ⟨s, 0, by simp [memalloc, Allocator.memalloc], .inl ⟨rfl, rfl⟩⟩ (.inl rfl)
  rw [or_iff_right hq.ne']
  have hint : q < 2 ^ 31 → toInt (q : ℤ) = q := fun hlt ↦ toInt_eq_self (by omega) (by omega)
  have hlt := toInt_lt q
  -- a fragment is found
  have hhit : ∀ {a : Allocator} {g : ℕ},
      (∃ f, ((s.allocator.frags f).pool = some .free ∨ (s.allocator.frags f).pool = some .defer) ∧
        toInt q ≤ s.allocator.size f) →
      memallocFragment pl s.allocator q blk = some (a, g) → Inv now [] a →
      (a.frags g).pool = some .alloc → a.size g = toInt q →
      (Honours q need (memalloc pl s q blk) ↔ need = q ∧ Servable pl s.allocator q blk) := by
    rintro a g ⟨f, hpool, hle⟩ hrun hinv' hafter hsize
    rw [honours_iff_of_handed hq hneed hrun hinv' hafter hsize]
    refine and_congr_right fun _ ↦ ⟨fun hlt' ↦ ⟨hlt', .inl ⟨f, hpool, ?_⟩⟩, And.left⟩
    rw [hint hlt'] at hle
    exact hle
  -- no fragment is found
  have hmiss : memoryFragmentFindBySize pl s.allocator .free (toInt q) =
        some (s.allocator, none) →
      memoryFragmentFindBySize pl s.allocator .defer (toInt q) = some (s.allocator, none) →
      (0 < toInt q → memoryFragmentSelect s.allocator .free (toInt q) = none ∧
        memoryFragmentSelect s.allocator .defer (toInt q) = none) →
      (Honours q need (memalloc pl s q blk) ↔ need = q ∧ Servable pl s.allocator q blk) := by
    intro hfree hdefer hselect
    have hnone : ∀ g, (s.allocator.frags g).pool = some .free ∨
        (s.allocator.frags g).pool = some .defer → 0 < toInt q →
          s.allocator.size g < toInt q := by
      rintro g (hg | hg) hpos
      · exact (hinv.index .free).size_lt_of_select hinv.ordered_of_pool hpos.le hlt
          (hselect hpos).1 hg
      · exact (hinv.index .defer).size_lt_of_select hinv.ordered_of_pool hpos.le hlt
          (hselect hpos).2 hg
    by_cases hcut : 0 < toInt q ∧ toInt q ≤ pageRequest pl q ∧ blk ≠ 0
    · obtain ⟨hpos, hle, hblk⟩ := hcut
      obtain ⟨hselfree, hseldefer⟩ := hselect hpos
      have hfresh := hmalloc.resolve_left hblk hselfree hseldefer
      have hreq : pageRequest pl q < 2 ^ 31 := by
        rw [pageRequest_eq]
        exact toInt_lt _
      obtain ⟨s₁, g, hnew, hinv₁, -, -, hsize₁⟩ :=
        hinv.newBlock pl (hpos.trans_le hle) hreq hfresh
      obtain ⟨a, hsplit, hinv', -, hafter, hsize, -⟩ :=
        hinv₁.splitHeld pl hpos (by rw [hsize₁]; exact hle)
      have hrun := (fragmentFor_of_miss hfree hdefer).mpr ⟨s₁, hnew, hsplit⟩
      rw [honours_iff_of_handed hq hneed hrun hinv' hafter hsize]
      refine and_congr_right fun _ ↦ ⟨fun hlt' ↦ ⟨hlt', .inr ⟨?_, hblk⟩⟩, And.left⟩
      rw [hint hlt'] at hle
      exact fits_of_le_pageRequest hq hlt' hle
    · refine iff_of_false (not_honours_of_start hq ?_) ?_
      · intro a g hrun
        obtain ⟨s₁, hnew, hsplit⟩ := (fragmentFor_of_miss hfree hdefer).mp hrun
        obtain ⟨hstart, hsize⟩ := newBlock_fragment hnew
        obtain ⟨-, hpos, hle, hstart'⟩ := start_memoryFragmentSplit hsplit
        rw [hsize] at hle
        rw [hstart', hstart]
        exact not_not.mp fun hblk ↦ hcut ⟨hpos, hle, hblk⟩
      · rintro ⟨-, hlt', ⟨g, hpool, hle⟩ | ⟨hfits, hblk⟩⟩
        · have := hnone g hpool (by rw [hint hlt']; omega)
          rw [hint hlt'] at this
          omega
        · refine hcut ⟨by rw [hint hlt']; omega, ?_, hblk⟩
          have hle := le_roundUp pl q
          rw [hint hlt', hfits.pageRequest_eq]
          omega
  by_cases hpos : 0 < toInt q
  · rcases hinv.findBySize pl .free hpos hlt with ⟨hselfree, hfree⟩ |
      ⟨a, g, hrun, hinv', -, -, hafter, hsize⟩
    · rcases hinv.findBySize pl .defer hpos hlt with ⟨hseldefer, hdefer⟩ |
        ⟨a, g, hrun, hinv', -, -, hafter, hsize⟩
      · exact hmiss hfree hdefer fun _ ↦ ⟨hselfree, hseldefer⟩
      · obtain ⟨f, hf, hle⟩ := hinv.exists_of_findBySize hlt hrun
        exact hhit ⟨f, .inr hf, hle⟩ (fragmentFor_of_defer hfree hrun) hinv' hafter hsize
    · obtain ⟨f, hf, hle⟩ := hinv.exists_of_findBySize hlt hrun
      exact hhit ⟨f, .inl hf, hle⟩ (fragmentFor_of_free hrun) hinv' hafter hsize
  · have hskip : ∀ pool, memoryFragmentFindBySize pl s.allocator pool (toInt q) =
        some (s.allocator, none) := fun pool ↦ by
      rw [memoryFragmentFindBySize, if_pos (not_lt.mp hpos)]
    exact hmiss (hskip .free) (hskip .defer) fun hpos' ↦ absurd hpos' hpos

/-- In every state of a run `memalloc` and `memcalloc` honour exactly the requests for no bytes and
those that can be served.  `malloc` returns `NULL` or a fresh region. -/
theorem requests_honoured_iff (hreach : Reachable pl now s) :
    (∀ (size : ℕ) (blk : ℤ), size < 2 ^ 64 → blk = 0 ∨ MallocFresh pl s.allocator size blk →
      (Honours size size (memalloc pl s size blk) ↔
        size = 0 ∨ Servable pl s.allocator size blk)) ∧
    ∀ (nmemb size : ℕ) (blk : ℤ), nmemb < 2 ^ 64 → size < 2 ^ 64 →
      blk = 0 ∨ MallocFresh pl s.allocator (nmemb * size % 2 ^ 64) blk →
        (Honours (nmemb * size % 2 ^ 64) (nmemb * size) (memcalloc pl s nmemb size blk) ↔
          2 ^ 64 ∣ nmemb * size ∨ Servable pl s.allocator (nmemb * size) blk) := by
  constructor
  · intro size blk _ hmalloc
    simpa using honours_iff hreach.inv (.inl rfl : size = size ∨ _) hmalloc
  · intro nmemb size blk _ _ hmalloc
    unfold memcalloc
    generalize nmemb * size = bytes at hmalloc ⊢
    rw [honours_iff hreach.inv (by omega) hmalloc, Nat.dvd_iff_mod_eq_zero]
    refine or_congr_right ⟨?_, ?_⟩
    · rintro ⟨heq, hserve⟩
      rwa [← heq] at hserve
    · intro hserve
      have heq : bytes % 2 ^ 64 = bytes := Nat.mod_eq_of_lt (hserve.1.trans (by norm_num))
      rw [heq]
      exact ⟨rfl, hserve⟩

end Requests

theorem freshRegion_meminit {blk : ℤ} (hpos : 0 < blk) {req : ℤ} (hle : blk + req ≤ 2 ^ 63) :
    FreshRegion meminit blk req :=
  ⟨hpos, hle, by simp [meminit]⟩

/-- Of a request for 2^32 + 100 bytes 100 are left. -/
theorem wide_request_cut :
    MallocFresh lp64 initial.allocator (2 ^ 32 + 100) 4096 ∧
      ¬ Honours (2 ^ 32 + 100) (2 ^ 32 + 100) (memalloc lp64 initial (2 ^ 32 + 100) 4096) := by
  have hfresh : MallocFresh lp64 initial.allocator (2 ^ 32 + 100) 4096 := fun _ _ ↦
    freshRegion_meminit (by norm_num) (by decide)
  refine ⟨hfresh, ?_⟩
  rw [honours_iff (inv_meminit 0) (.inl rfl) (.inr hfresh)]
  rintro (hzero | ⟨-, hlt, -⟩)
  · exact absurd hzero (by norm_num)
  · exact absurd hlt (by norm_num)

theorem requests_honoured_iff_hundred :
    Honours 100 100 (memalloc lp64 initial 100 4096) ↔
      100 = 0 ∨ Servable lp64 initial.allocator 100 4096 :=
  (requests_honoured_iff (Reachable.start 0)).1 100 4096 (by norm_num)
    (.inr fun _ _ ↦ freshRegion_meminit (by norm_num) (by decide))

end HavokMud.Memory
