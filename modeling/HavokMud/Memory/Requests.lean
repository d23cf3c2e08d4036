import HavokMud.Memory.Blocks

/-!
# What a request does

Each function clients call keeps the invariant.  The frame `Beside` says which fragment it touches:
the one handed out, cut or freed.
-/

namespace HavokMud.Memory

open BinaryTree BTree SearchTree HavokMud.Interval

variable {s : Allocator} {now : ℤ} {held : List ℕ} {f : ℕ} {pool : Pool}

/-- Handing out the first `n` bytes of a held fragment. -/
theorem Inv.handOut (pl : Platform) (hinv : Inv now (f :: held) s) {n : ℤ} (hn : 0 < n)
    (hle : n ≤ s.size f) :
    ∃ s', handOut pl s f n = some s' ∧ Inv now held s' ∧ Beside [f] s s' ∧
      (s'.frags f).pool = some .alloc ∧ s'.size f = n ∧ s'.start f = s.start f := by
  by_cases heq : s.size f = n
  · obtain ⟨trees, hadd, hinv'⟩ := hinv.add .alloc (by simp)
    refine ⟨_, ?_, hinv', hinv.beside_repool _ _ _ _, by simp, by simp [heq], by simp⟩
    have hsize : (s.frags f).size = n := heq
    simp [Memory.handOut, hsize, hadd]
  · obtain ⟨s₁, r, hcarve, hinv₁, hbeside₁, hr, hf₁, hr₁⟩ :=
      hinv.carve pl (List.mem_cons_self) hn (lt_of_le_of_ne hle (Ne.symm heq))
    have hfuse : InUse s f := hinv.inUse_of_held (by simp)
    have hfr : f ≠ r := fun h ↦ hr (h ▸ hfuse)
    obtain ⟨trees₂, hadd₂, hinv₂⟩ := hinv₁.add .free (by simp)
    have hbeside₂ := hinv₁.beside_repool .free trees₂ r (some .free)
    obtain ⟨trees₃, hadd₃, hinv₃⟩ := hinv₂.add .alloc (by simp)
    have hbeside₃ := hinv₂.beside_repool .alloc trees₃ f (some .alloc)
    have hall : Beside [r, f] s (repool (repool s₁ .free trees₂ r (some .free)) .alloc trees₃ f
        (some .alloc)) :=
      ((hbeside₁.mono (by simp)).trans (hbeside₂.mono (by simp))).trans (hbeside₃.mono (by simp))
    refine ⟨_, ?_, hinv₃, hall.drop hr (by simp [hfr.symm]), by simp, ?_, ?_⟩
    · have hsize : (s.frags f).size ≠ n := heq
      simp [Memory.handOut, hsize, hcarve, hadd₂, hadd₃]
    · rw [size_repool, size_repool, Allocator.size, hf₁]
      rfl
    · rw [start_repool, start_repool, Allocator.start, hf₁]
      rfl

/-- `memoryFragmentSplit` of a fragment in a pool. -/
theorem Inv.split (pl : Platform) (hinv : Inv now held s)
    (hf : (s.frags f).pool = some pool) {n : ℤ}
    (hn : 0 < n) (hle : n ≤ s.size f) :
    ∃ s', memoryFragmentSplit pl s f n = some (s', some f) ∧ Inv now held s' ∧ Beside [f] s s' ∧
      (s'.frags f).pool = some .alloc ∧ s'.size f = n ∧ s'.start f = s.start f := by
  obtain ⟨trees, hremove, hinv₁⟩ := hinv.remove hf
  obtain ⟨s', hout, hinv', hbeside, hpool, hsize, hstart⟩ :=
    hinv₁.handOut pl hn (by rw [size_repool]; exact hle)
  refine ⟨s', ?_, hinv', (hinv.beside_repool _ _ _ _).trans hbeside, hpool, hsize,
    by rw [hstart, start_repool]⟩
  have hguard : ¬ (n ≤ 0 ∨ (s.frags f).size < n) := by
    rw [not_or, not_le, not_lt]
    exact ⟨hn, hle⟩
  simp [memoryFragmentSplit, hguard, hf, hremove, hout]

/-- `memoryFragmentSplit` of a fragment that is in no pool. -/
theorem Inv.splitHeld (pl : Platform) (hinv : Inv now (f :: held) s) {n : ℤ} (hn : 0 < n)
    (hle : n ≤ s.size f) :
    ∃ s', memoryFragmentSplit pl s f n = some (s', some f) ∧ Inv now held s' ∧ Beside [f] s s' ∧
      (s'.frags f).pool = some .alloc ∧ s'.size f = n ∧ s'.start f = s.start f := by
  obtain ⟨s', hout, hrest⟩ := hinv.handOut pl hn hle
  refine ⟨s', ?_, hrest⟩
  have hguard : ¬ (n ≤ 0 ∨ (s.frags f).size < n) := by
    rw [not_or, not_le, not_lt]
    exact ⟨hn, hle⟩
  simp [memoryFragmentSplit, hguard, hinv.held_out f (by simp), hout]

/-- `memoryFragmentFindBySize` hands out a fragment of the pool, or finds none and does nothing. -/
theorem Inv.findBySize (pl : Platform) (hinv : Inv now held s) (pool : Pool) {n : ℤ} (hn : 0 < n)
    (hlt : n < 2 ^ 31) :
    memoryFragmentSelect s pool n = none ∧ memoryFragmentFindBySize pl s pool n = some (s, none) ∨
      ∃ s' f, memoryFragmentFindBySize pl s pool n = some (s', some f) ∧ Inv now held s' ∧
        Beside [f] s s' ∧ (s.frags f).pool = some pool ∧ (s'.frags f).pool = some .alloc ∧
        s'.size f = n := by
  cases hsel : memoryFragmentSelect s pool n with
  | none => exact Or.inl ⟨rfl, by simp [memoryFragmentFindBySize, hsel]⟩
  | some f =>
      obtain ⟨hf, hle⟩ := (hinv.index pool).select_spec hinv.ordered_of_pool hn.le hlt hsel
      obtain ⟨s', hsplit, hinv', hbeside, hpool, hsize, -⟩ := hinv.split pl hf hn hle
      refine Or.inr ⟨s', f, ?_, hinv', hbeside, hf, hpool, hsize⟩
      rw [memoryFragmentFindBySize, if_neg (not_le.mpr hn), hsel]
      exact hsplit

/-! ## Sizes -/

/-- A size rounded up to whole pages. -/
def roundUp (pl : Platform) (size : ℕ) : ℕ :=
  (size / pl.pageSize + if size % pl.pageSize ≠ 0 then 1 else 0) * pl.pageSize

/-- The size rounded up to a page fits in an `int`. -/
def Fits (pl : Platform) (size : ℕ) : Prop :=
  roundUp pl size < 2 ^ 31

instance (pl : Platform) (size : ℕ) : Decidable (Fits pl size) :=
  inferInstanceAs (Decidable (_ < _))

theorem pageSize_pos (pl : Platform) : 0 < pl.pageSize :=
  pl.sizeofBlock_pos.trans_le pl.sizeofBlock_le

theorem le_roundUp (pl : Platform) (size : ℕ) : size ≤ roundUp pl size := by
  have hpage := pageSize_pos pl
  have hdiv := Nat.div_add_mod size pl.pageSize
  have hmod := Nat.mod_lt size hpage
  rw [roundUp, Nat.add_mul]
  split_ifs with hzero
  · rw [Nat.mul_comm] at hdiv
    omega
  · rw [Nat.mul_comm] at hdiv
    omega

theorem toInt_eq_self {n : ℤ} (hlo : 0 ≤ n) (hhi : n < 2 ^ 31) : toInt n = n := by
  have h : Int.bmod n (2 * 2 ^ 31) = n := bmod_eq_self (by omega) (by omega)
  rw [toInt, show (2 ^ 32 : ℕ) = 2 * 2 ^ 31 by norm_num]
  exact h

theorem Fits.toInt_eq {pl : Platform} {size : ℕ} (hfits : Fits pl size) : toInt size = size := by
  have hle := le_roundUp pl size
  have hlt : roundUp pl size < 2 ^ 31 := hfits
  exact toInt_eq_self (by omega) (by omega)

theorem Fits.pageRequest_eq {pl : Platform} {size : ℕ} (hfits : Fits pl size) :
    pageRequest pl size = roundUp pl size := by
  have hpage := pageSize_pos pl
  have hlt : roundUp pl size < 2 ^ 31 := hfits
  unfold pageRequest
  unfold roundUp at hlt ⊢
  generalize size / pl.pageSize + (if size % pl.pageSize ≠ 0 then 1 else 0) = pages at hlt ⊢
  have hpages : pages < 2 ^ 31 := lt_of_le_of_lt (Nat.le_mul_of_pos_right _ hpage) hlt
  have hpages' : toInt (pages : ℤ) = pages := toInt_eq_self (by omega) (by omega)
  simp only [hpages', ← Nat.cast_mul]
  exact toInt_eq_self (by omega) (by omega)

/-! ## Requests -/

/-- What is asked of `malloc`: should the request reach it, the region it returns is fresh. -/
def MallocFresh (pl : Platform) (s : Allocator) (size : ℕ) (blk : ℤ) : Prop :=
  memoryFragmentSelect s .free (toInt size) = none →
    memoryFragmentSelect s .defer (toInt size) = none → FreshRegion s blk (pageRequest pl size)

instance (pl : Platform) (s : Allocator) (size : ℕ) (blk : ℤ) :
    Decidable (MallocFresh pl s size blk) :=
  inferInstanceAs (Decidable (_ → _ → _))

/-- The fragment `memalloc` hands out was not handed out before. -/
theorem Inv.memallocFragment (pl : Platform) (hinv : Inv now held s) {size : ℕ} (hpos : 0 < size)
    (hfits : Fits pl size) {blk : ℤ} (hmalloc : MallocFresh pl s size blk) :
    ∃ s' f, memallocFragment pl s size blk = some (s', f) ∧ Inv now held s' ∧ Beside [f] s s' ∧
      (s.frags f).pool ≠ some .alloc ∧ f ∉ held ∧ (s'.frags f).pool = some .alloc ∧
      s'.size f = size := by
  have hlt : roundUp pl size < 2 ^ 31 := hfits
  have hle := le_roundUp pl size
  have hn : (0 : ℤ) < size := by omega
  have hn' : (size : ℤ) < 2 ^ 31 := by omega
  have hnotheld : ∀ {g : ℕ} {P : Pool}, (s.frags g).pool = some P → g ∉ held := by
    intro g P hg hmem
    simp [hinv.held_out g hmem] at hg
  rw [MallocFresh, hfits.toInt_eq, hfits.pageRequest_eq] at hmalloc
  unfold Memory.memallocFragment
  rw [hfits.toInt_eq, hfits.pageRequest_eq]
  rcases hinv.findBySize pl .free hn hn' with ⟨hfree, hfree'⟩ |
      ⟨s', f, hrun, hinv', hbeside, hf, hrest⟩
  · rcases hinv.findBySize pl .defer hn hn' with
      ⟨hdefer, hdefer'⟩ | ⟨s', f, hrun, hinv', hbeside, hf, hrest⟩
    · obtain ⟨s₁, f, hnew, hinv₁, hbeside₁, hfresh, hsize₁⟩ :=
        hinv.newBlock pl (by omega) (by omega) (hmalloc hfree hdefer)
      obtain ⟨s', hsplit, hinv', hbeside', hpool, hsize, -⟩ :=
        hinv₁.splitHeld pl hn (by rw [hsize₁]; omega)
      refine ⟨s', f, ?_, hinv', hbeside₁.trans hbeside', fun hpool ↦
        hfresh (hinv.inUse_of_pool hpool),
        fun hmem ↦ hfresh (hinv.inUse_of_held hmem), hpool, hsize⟩
      simp [hfree', hdefer', hnew, hsplit]
    · refine ⟨s', f, ?_, hinv', hbeside, by simp [hf], hnotheld hf, hrest⟩
      simp [hfree', hrun]
  · refine ⟨s', f, ?_, hinv', hbeside, by simp [hf], hnotheld hf, hrest⟩
    simp [hrun]

/-! ## The clients' view -/

/-- Address and size of a fragment. -/
def extent (s : Allocator) (f : ℕ) : ℤ × ℤ :=
  (s.start f, s.size f)

/-- What is handed out to clients, with its sizes. -/
def handed (s : Allocator) : List (ℤ × ℤ) :=
  (inorder (s.pools .alloc).addrTree).map (extent s)

/-- What is handed out but for one fragment. -/
def handedBut (s : Allocator) (f : ℕ) : List (ℤ × ℤ) :=
  ((inorder (s.pools .alloc).addrTree).filter (· ≠ f)).map (extent s)

theorem Inv.mem_handed (hinv : Inv now held s) {x : ℤ × ℤ} :
    x ∈ handed s ↔ ∃ f, (s.frags f).pool = some .alloc ∧ extent s f = x := by
  simp only [handed, List.mem_map, (hinv.index .alloc).addr_mem]

theorem Inv.handed_perm (hinv : Inv now held s) (hf : (s.frags f).pool = some .alloc) :
    (handed s).Perm (extent s f :: handedBut s f) := by
  have hmem : f ∈ inorder (s.pools .alloc).addrTree := ((hinv.index .alloc).addr_mem f).mpr hf
  have hnodup := (hinv.index .alloc).addr_sorted.nodup
  have hperm : (inorder (s.pools .alloc).addrTree).Perm
      (f :: (inorder (s.pools .alloc).addrTree).filter (· ≠ f)) := by
    refine (List.perm_ext_iff_of_nodup hnodup ?_).mpr fun g ↦ ?_
    · exact List.nodup_cons.mpr ⟨by simp, hnodup.filter _⟩
    · by_cases hg : g = f <;> simp [hg, hmem]
  simpa [handed, handedBut] using hperm.map (extent s)

theorem Inv.handed_eq (hinv : Inv now held s) (hf : (s.frags f).pool ≠ some .alloc) :
    handed s = handedBut s f := by
  rw [handed, handedBut, List.filter_eq_self.mpr]
  intro g hg
  have hpool := ((hinv.index .alloc).addr_mem g).mp hg
  have hgf : g ≠ f := fun heq ↦ hf (heq ▸ hpool)
  simp [hgf]

/-- A step that touches one fragment leaves what clients have of the others. -/
theorem Beside.handedBut_perm {s' : Allocator} {now' : ℤ} {held' : List ℕ} (h : Beside [f] s s')
    (hinv : Inv now held s) (hinv' : Inv now' held' s') :
    (handedBut s' f).Perm (handedBut s f) := by
  have hpool : ∀ g, g ≠ f →
      ((s'.frags g).pool = some .alloc ↔ (s.frags g).pool = some .alloc) := by
    intro g hg
    by_cases hu : InUse s g
    · rw [h.frags g (by simpa using hg) hu]
    · exact iff_of_false (h.fresh g (by simpa using hg) hu) fun hp ↦ hu (hinv.inUse_of_pool hp)
  have hmem : ∀ g, g ∈ (inorder (s'.pools .alloc).addrTree).filter (· ≠ f) ↔
      g ∈ (inorder (s.pools .alloc).addrTree).filter (· ≠ f) := by
    intro g
    simp only [List.mem_filter, (hinv.index .alloc).addr_mem, (hinv'.index .alloc).addr_mem,
      decide_eq_true_eq]
    exact and_congr_left fun hg ↦ hpool g hg
  have hperm : ((inorder (s'.pools .alloc).addrTree).filter (· ≠ f)).Perm
      ((inorder (s.pools .alloc).addrTree).filter (· ≠ f)) :=
    (List.perm_ext_iff_of_nodup ((hinv'.index .alloc).addr_sorted.nodup.filter _)
      ((hinv.index .alloc).addr_sorted.nodup.filter _)).mpr hmem
  have hextent : ∀ g ∈ (inorder (s.pools .alloc).addrTree).filter (· ≠ f),
      extent s' g = extent s g := by
    intro g hg
    rw [List.mem_filter, (hinv.index .alloc).addr_mem] at hg
    have hframe := h.frags g (by simpa using hg.2) (hinv.inUse_of_pool hg.1)
    simp only [extent, Allocator.start, Allocator.size, hframe]
  calc
    handedBut s' f = ((inorder (s'.pools .alloc).addrTree).filter (· ≠ f)).map (extent s') := rfl
    List.Perm _ (((inorder (s.pools .alloc).addrTree).filter (· ≠ f)).map (extent s')) :=
      hperm.map _
    _ = handedBut s f := List.map_congr_left hextent

/-- A step that hands out one fragment. -/
theorem Beside.handed_perm {s' : Allocator} {now' : ℤ} {held' : List ℕ} (h : Beside [f] s s')
    (hinv : Inv now held s) (hinv' : Inv now' held' s') (hbefore : (s.frags f).pool ≠ some .alloc)
    (hafter : (s'.frags f).pool = some .alloc) : (handed s').Perm (extent s' f :: handed s) := by
  rw [hinv.handed_eq hbefore]
  exact (hinv'.handed_perm hafter).trans ((h.handedBut_perm hinv hinv').cons _)

/-- Two things handed out do not meet. -/
theorem Inv.handed_apart (hinv : Inv now held s) :
    (handed s).Pairwise fun x y ↦ Apart x.1 x.2 y.1 y.2 := by
  rw [handed, List.pairwise_map]
  have hnodup := (hinv.index .alloc).addr_sorted.nodup
  refine hnodup.imp_of_mem ?_
  intro f g hf hg hne
  exact hinv.fragments_apart (hinv.inUse_of_pool (((hinv.index .alloc).addr_mem f).mp hf))
    (hinv.inUse_of_pool (((hinv.index .alloc).addr_mem g).mp hg)) hne

/-- No block was given back. -/
structure BlocksKept (s s' : Allocator) : Prop where
  used : ∀ b ∈ s.blockUsedList, b ∈ s'.blockUsedList
  start : ∀ b ∈ s.blockUsedList, (s'.blocks b).start = (s.blocks b).start
  size : ∀ b ∈ s.blockUsedList, (s'.blocks b).size = (s.blocks b).size

theorem Beside.blocksKept {s' : Allocator} {touched : List ℕ} (h : Beside touched s s') :
    BlocksKept s s' :=
  ⟨h.used, h.blockStart, h.blockSize⟩

theorem BlocksKept.refl (s : Allocator) : BlocksKept s s :=
  ⟨fun _ hb ↦ hb, fun _ _ ↦ rfl, fun _ _ ↦ rfl⟩

theorem BlocksKept.trans {s₁ s₂ s₃ : Allocator} (h₁₂ : BlocksKept s₁ s₂) (h₂₃ : BlocksKept s₂ s₃) :
    BlocksKept s₁ s₃ where
  used b hb := h₂₃.used b (h₁₂.used b hb)
  start b hb := (h₂₃.start b (h₁₂.used b hb)).trans (h₁₂.start b hb)
  size b hb := (h₂₃.size b (h₁₂.used b hb)).trans (h₁₂.size b hb)

/-- `memalloc` hands out a new piece of the requested size. -/
theorem Inv.memalloc (pl : Platform) (hinv : Inv now held s) {size : ℕ} (hpos : 0 < size)
    (hfits : Fits pl size) {blk : ℤ} (hmalloc : MallocFresh pl s size blk) :
    ∃ s' p, s.memalloc pl size blk = some (s', p) ∧ Inv now held s' ∧
      (handed s').Perm ((p, (size : ℤ)) :: handed s) ∧ BlocksKept s s' ∧
      s'.memAllocBytes = (s.memAllocBytes + size) % 2 ^ 64 := by
  obtain ⟨s₁, f, hrun, hinv₁, hbeside, hbefore, -, hafter, hsize⟩ :=
    hinv.memallocFragment pl hpos hfits hmalloc
  refine ⟨s₁.addBytes size, s₁.start f, ?_, hinv₁.addBytes _, ?_,
    ⟨hbeside.used, hbeside.blockStart, hbeside.blockSize⟩, ?_⟩
  · simp [Allocator.memalloc, hpos.ne', hrun]
  · rw [← hsize]
    exact hbeside.handed_perm hinv hinv₁ hbefore hafter
  · rw [Allocator.addBytes, hbeside.bytes]

/-- What `memfree` does with a fragment it has found. -/
theorem Inv.memfree_found (hinv : Inv now held s) {p : ℤ}
    (hfind : memoryFragmentFindByAddr s .alloc p = some f) (hf : (s.frags f).pool = some .alloc) :
    ∃ s', s.memfree p now = some s' ∧ Inv now held s' ∧
      (handed s).Perm (extent s f :: handed s') ∧ BlocksKept s s' ∧
      s'.memAllocBytes = (s.memAllocBytes - s.size f) % 2 ^ 64 ∧
      s'.frags f = { s.frags f with pool := some .defer, timestamp := now + timeDefer } ∧
      ∀ g, g ≠ f → s'.frags g = s.frags g := by
  have hinv₀ := hinv.addBytes (-(s.size f))
  obtain ⟨trees₁, hremove, hinv₁⟩ :=
    hinv₀.remove (hf : ((s.addBytes (-(s.size f))).frags f).pool = some .alloc)
  have hinv₂ := hinv₁.setTimestamp (List.mem_cons_self) (now + timeDefer)
  obtain ⟨trees₃, hadd, hinv₃⟩ := hinv₂.add .defer (by simp)
  have hbeside₂ := hinv₁.beside_setTimestamp f (now + timeDefer)
  have hbeside := ((hinv₀.beside_repool .alloc trees₁ f none).trans hbeside₂).trans
    (hinv₂.beside_repool .defer trees₃ f (some .defer))
  refine ⟨_, ?_, hinv₃, ?_, ⟨hbeside.used, hbeside.blockStart, hbeside.blockSize⟩, ?_, ?_, ?_⟩
  · simp only [Allocator.memfree, hfind, hremove]
    exact hadd
  · calc
      List.Perm (handed s) (extent s f :: handedBut s f) := hinv.handed_perm hf
      List.Perm _ (extent s f :: handedBut _ f) :=
        ((hbeside.handedBut_perm hinv₀ hinv₃).symm).cons _
      _ = extent s f :: handed _ := congrArg (List.cons _) (hinv₃.handed_eq (by simp)).symm
  · rw [hbeside.bytes]
    rfl
  · simp [repool]
  · intro g hg
    simp [repool, hg]

theorem Inv.pool_of_found (hinv : Inv now held s) {p : ℤ} {pool : Pool}
    (hfind : memoryFragmentFindByAddr s pool p = some f) :
    (s.frags f).pool = some pool ∧ keyComparePointer p (s.start f) = 0 := by
  unfold memoryFragmentFindByAddr at hfind
  split_ifs at hfind
  obtain ⟨hmem, hzero⟩ := find_some hfind
  exact ⟨((hinv.index pool).addr_mem f).mp hmem, hzero⟩

/-- `memfree` never fails, whatever pointer it is given. -/
theorem Inv.memfree_total (hinv : Inv now held s) (p : ℤ) :
    ∃ s', s.memfree p now = some s' ∧ Inv now held s' := by
  cases hfind : memoryFragmentFindByAddr s .alloc p with
  | none => exact ⟨s, by simp [Allocator.memfree, hfind], hinv⟩
  | some f =>
      obtain ⟨s', hrun, hinv', -⟩ := hinv.memfree_found hfind (hinv.pool_of_found hfind).1
      exact ⟨s', hrun, hinv'⟩

/-- Freeing what is handed out at `p` moves it to the deferred pool. -/
theorem Inv.memfree (hinv : Inv now held s) {p n : ℤ} (hp : (p, n) ∈ handed s) :
    ∃ s', s.memfree p now = some s' ∧ Inv now held s' ∧ (handed s).Perm ((p, n) :: handed s') ∧
      BlocksKept s s' ∧ s'.memAllocBytes = (s.memAllocBytes - n) % 2 ^ 64 := by
  obtain ⟨f, hf, hextent⟩ := hinv.mem_handed.mp hp
  obtain ⟨rfl, rfl⟩ := Prod.mk.inj hextent
  have hfuse := hinv.inUse_of_pool hf
  have hfind : memoryFragmentFindByAddr s .alloc (s.start f) = some f :=
    ((hinv.index .alloc).findByAddr_iff hinv.ordered_of_pool (hinv.start_pos_of_inUse hfuse)
      (hinv.ordered hfuse).start_lt).mpr ⟨hf, rfl⟩
  obtain ⟨s', hrun, hinv', hperm, hkept, hbytes, -⟩ := hinv.memfree_found hfind hf
  exact ⟨s', hrun, hinv', hperm, hkept, hbytes⟩

/-- A pointer at which nothing is handed out is ignored. -/
theorem Inv.memfree_unknown (hinv : Inv now held s) {p : ℤ} (hnonneg : 0 ≤ p) (hlt : p < 2 ^ 64)
    (hp : ∀ n, (p, n) ∉ handed s) (time : ℤ) : s.memfree p time = some s := by
  cases hfind : memoryFragmentFindByAddr s .alloc p with
  | none => simp [Allocator.memfree, hfind]
  | some f =>
      obtain ⟨hf, hzero⟩ := hinv.pool_of_found hfind
      have hord := hinv.ordered_of_pool f hf
      have hstart : s.start f = p :=
        (keyComparePointer_eq_zero hnonneg hlt hord.start_nonneg hord.start_lt hzero).symm
      exact absurd (hinv.mem_handed.mpr ⟨f, hf, by rw [extent, hstart]⟩) (hp (s.size f))

end HavokMud.Memory
