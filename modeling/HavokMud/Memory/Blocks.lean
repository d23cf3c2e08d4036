import HavokMud.Memory.Invariant

/-!
# Cutting fragments, getting and giving back blocks

The steps that change the places of fragments: a held fragment is cut in two, a new block becomes a
held fragment, and a held fragment that is a whole block is given back with its block.
-/

namespace HavokMud.Memory

open BinaryTree BTree SearchTree HavokMud.Interval Records

variable {s : Allocator} {now : ℤ} {held : List ℕ} {f : ℕ}

/-! ## Cutting a fragment -/

/-- A new fragment record differs from all that are in use. -/
theorem memoryFragmentGetNew_spec (pl : Platform) {used : ℕ → Prop}
    (hkeeps : s.fragmentFreeList.Keeps used) :
    ∃ s₁ r, memoryFragmentGetNew pl s = some (s₁, r) ∧ ¬ used r ∧ s₁.frags = s.frags ∧
      s₁.blocks = s.blocks ∧ s₁.pools = s.pools ∧ s₁.blockUsedList = s.blockUsedList ∧
      s₁.blockFreeList = s.blockFreeList ∧ s₁.memAllocBytes = s.memAllocBytes ∧
      s₁.fragmentFreeList.Keeps fun x ↦ x = r ∨ used x := by
  have hpage : 0 < pl.pageSize / pl.sizeofFragment :=
    Nat.div_pos pl.sizeofFragment_le pl.sizeofFragment_pos
  obtain ⟨r, records, grown, htake, hfresh, hkeeps'⟩ := hkeeps.take hpage
  refine ⟨_, r, by simp only [memoryFragmentGetNew, htake]; rfl, hfresh, ?_⟩
  cases grown <;> exact ⟨rfl, rfl, rfl, rfl, rfl, rfl, hkeeps'⟩

/-- A new block record differs from all that are in use. -/
theorem memoryBlockGetNew_spec (pl : Platform)
    (hkeeps : s.blockFreeList.Keeps (· ∈ s.blockUsedList)) :
    ∃ s₁ b, memoryBlockGetNew pl s = some (s₁, b) ∧ b ∉ s.blockUsedList ∧ s₁.frags = s.frags ∧
      s₁.blocks = s.blocks ∧ s₁.pools = s.pools ∧ s₁.blockUsedList = s.blockUsedList ++ [b] ∧
      s₁.fragmentFreeList = s.fragmentFreeList ∧ s₁.memAllocBytes = s.memAllocBytes ∧
      s₁.blockFreeList.Keeps (· ∈ s₁.blockUsedList) := by
  have hpage : 0 < pl.pageSize / pl.sizeofBlock :=
    Nat.div_pos pl.sizeofBlock_le pl.sizeofBlock_pos
  obtain ⟨b, records, grown, htake, hfresh, hkeeps'⟩ := hkeeps.take hpage
  have hused : ∀ x, x ∈ s.blockUsedList ++ [b] ↔ x = b ∨ x ∈ s.blockUsedList := fun x ↦ by
    rw [List.mem_append, List.mem_singleton, or_comm]
  refine ⟨_, b, by simp only [memoryBlockGetNew, htake]; rfl, hfresh, ?_⟩
  cases grown <;> exact ⟨rfl, rfl, rfl, rfl, rfl, rfl, hkeeps'.congr hused⟩

/-- The record of what is left over of fragment `f` behind its first `n` bytes. -/
def remainderOf (s : Allocator) (f : ℕ) (n : ℤ) : Fragment :=
  { block := (s.frags f).block
    pool := none
    size := (s.frags f).size - n
    start := (s.frags f).start + n
    endAddr := (s.frags f).endAddr
    timestamp := 0 }

/-- The record of fragment `f` cut down to `n` bytes. -/
def cutDown (s : Allocator) (f : ℕ) (n : ℤ) : Fragment :=
  { s.frags f with endAddr := (s.frags f).endAddr + n, size := n }

/-- A block stays sound when a fragment of it is cut in two. -/
theorem BlockSound.split {s' : Allocator} {b r : ℕ} (h : BlockSound s b)
    (hf : f ∈ (s.blocks b).fragmentList) (hr : r ∉ (s.blocks b).fragmentList) {n : ℤ} (hn : 0 < n)
    (hlt : n < s.size f)
    (hblock : s'.blocks b =
      { s.blocks b with fragmentList := (s.blocks b).fragmentList ++ [r] })
    (hfrf : s'.frags f = cutDown s f n) (hfrr : s'.frags r = remainderOf s f n)
    (hfro : ∀ g ∈ (s.blocks b).fragmentList, g ≠ f → s'.frags g = s.frags g) :
    BlockSound s' b := by
  have hlist : ∀ g, g ∈ (s'.blocks b).fragmentList ↔ g ∈ (s.blocks b).fragmentList ∨ g = r := by
    intro g
    rw [hblock, List.mem_append, List.mem_singleton]
  have hbstart : (s'.blocks b).start = (s.blocks b).start := by rw [hblock]
  have hbsize : (s'.blocks b).size = (s.blocks b).size := by rw [hblock]
  have hplace : ∀ g ∈ (s.blocks b).fragmentList, g ≠ f → SamePlace s s' g :=
    fun g hg hgf ↦ samePlace_of_eq (hfro g hg hgf)
  have hstart : ∀ g ∈ (s.blocks b).fragmentList, s'.start g = s.start g := by
    intro g hg
    by_cases hgf : g = f
    · rw [hgf, Allocator.start, hfrf]
      rfl
    · exact (hplace g hg hgf).start
  have hstartr : s'.start r = s.start f + n := by
    rw [Allocator.start, hfrr]
    rfl
  have hsizef : s'.size f = n := by
    rw [Allocator.size, hfrf]
    rfl
  have hsizer : s'.size r = s.size f - n := by
    rw [Allocator.size, hfrr]
    rfl
  have hin := h.tiles.inside f hf
  refine ⟨?_, hbstart ▸ h.start_pos, hbsize ▸ h.size_pos, hbsize ▸ h.size_lt,
    by rw [hbstart, hbsize]; exact h.end_le, ?_, ?_, ?_⟩
  · intro g hg
    rcases (hlist g).mp hg with hg | rfl
    · by_cases hgf : g = f
      · rw [hgf, hfrf]
        exact h.own_block f hf
      · rw [(hplace g hg hgf).block]
        exact h.own_block g hg
    · rw [hfrr]
      exact h.own_block f hf
  · rw [hblock]
    exact h.tiles.split hf hr hn hlt hstart hstartr hsizef hsizer
      fun g hg hgf ↦ (hplace g hg hgf).size
  · intro g hg
    rw [hbstart, hbsize]
    rcases (hlist g).mp hg with hg | rfl
    · have hbehind := h.behind g hg
      by_cases hgf : g = f
      · rw [hgf] at hbehind ⊢
        rw [hfrf]
        change _ ≤ (s.frags f).endAddr + n + 1
        omega
      · rw [(hplace g hg hgf).endAddr]
        exact hbehind
    · rw [hfrr]
      exact h.behind f hf
  · intro g hg hwhole
    rw [hbsize] at hwhole
    rcases (hlist g).mp hg with hg | rfl
    · by_cases hgf : g = f
      · rw [hgf, hsizef] at hwhole
        omega
      · have hsame := hplace g hg hgf
        rw [hsame.size] at hwhole
        rw [hsame.endAddr, hsame.start, hsame.size]
        exact h.whole g hg hwhole
    · rw [hsizer] at hwhole
      omega

/-- `carveRemainder` of a held fragment leaves both parts held. -/
theorem Inv.carve (pl : Platform) (hinv : Inv now held s) (hf : f ∈ held) {n : ℤ} (hn : 0 < n)
    (hlt : n < s.size f) :
    ∃ s' r, carveRemainder pl s f n = some (s', r) ∧ Inv now (r :: held) s' ∧ Beside [f] s s' ∧
      ¬ InUse s r ∧ s'.frags f = cutDown s f n ∧ s'.frags r = remainderOf s f n := by
  have hfuse := hinv.inUse_of_held hf
  obtain ⟨s₁, r, hget, hr, hfrags, hblocks, hpools, hused, hbfree, hbytes, hkeeps⟩ :=
    memoryFragmentGetNew_spec pl hinv.fragment_records
  have hrf : r ≠ f := fun heq ↦ hr (heq ▸ hfuse)
  set b := (s.frags f).block with hb
  set s' := ((addToBlock (s₁.setFrag r (remainderOf s f n)) b r).setFrag f (cutDown s f n)) with hs'
  have hrun : carveRemainder pl s f n = some (s', r) := by
    simp only [carveRemainder, hget, Option.bind_eq_bind, Option.bind_some, hfrags]
    rfl
  -- the state after the cut, field by field
  have hfr : ∀ g, s'.frags g =
      if g = f then cutDown s f n else if g = r then remainderOf s f n else s.frags g := by
    intro g
    simp [hs', addToBlock, hfrags]
  have hfrf : s'.frags f = cutDown s f n := by rw [hfr, if_pos rfl]
  have hfrr : s'.frags r = remainderOf s f n := by rw [hfr, if_neg hrf, if_pos rfl]
  have hfro : ∀ g, g ≠ f → g ≠ r → s'.frags g = s.frags g := fun g hgf hgr ↦ by
    rw [hfr, if_neg hgf, if_neg hgr]
  have hbl : ∀ c, s'.blocks c = if c = b then
      { s.blocks b with fragmentList := (s.blocks b).fragmentList ++ [r] } else s.blocks c := by
    intro c
    simp [hs', addToBlock, hblocks]
  have hblstart : ∀ c, (s'.blocks c).start = (s.blocks c).start := fun c ↦ by
    rw [hbl]
    split_ifs with hc
    · rw [hc]
    · rfl
  have hblsize : ∀ c, (s'.blocks c).size = (s.blocks c).size := fun c ↦ by
    rw [hbl]
    split_ifs with hc
    · rw [hc]
    · rfl
  have hus : s'.blockUsedList = s.blockUsedList := hused
  have hpool : ∀ g, (s'.frags g).pool = (s.frags g).pool := by
    intro g
    by_cases hgf : g = f
    · rw [hgf, hfrf]
      rfl
    · by_cases hgr : g = r
      · rw [hgr, hfrr, hinv.pool_of_not_inUse hr]
        rfl
      · rw [hfro g hgf hgr]
  have huse : ∀ g, InUse s' g ↔ g = r ∨ InUse s g := by
    intro g
    rw [InUse, hus, hbl]
    by_cases hgr : g = r
    · have hblockr : (s'.frags g).block = b := by rw [hgr, hfrr]; rfl
      have hbused : b ∈ s.blockUsedList := hfuse.1
      rw [hblockr, if_pos rfl]
      simp [hgr, hbused]
    · have hblock : (s'.frags g).block = (s.frags g).block := by
        by_cases hgf : g = f
        · rw [hgf, hfrf]
          rfl
        · rw [hfro g hgf hgr]
      rw [hblock]
      split_ifs with hgb
      · simp [InUse, hgb, hgr]
      · simp [InUse, hgr]
  have hnotin : ∀ c ∈ s.blockUsedList, r ∉ (s.blocks c).fragmentList := fun c hc hmem ↦
    hr (hinv.inUse_of_mem hc hmem)
  have hgeo : Geometry s' := by
    apply geometry_of_blocks
    · rw [hus]
      exact hinv.used_nodup
    · exact hkeeps.congr huse
    · rw [hus, show s'.blockFreeList = s.blockFreeList from hbfree]
      exact hinv.block_records
    · intro c hc d hd hne
      rw [hblstart, hblsize, hblstart, hblsize]
      exact hinv.apart c (hus ▸ hc) d (hus ▸ hd) hne
    · intro c hc
      rw [hus] at hc
      have hsound := hinv.toGeometry.blockSound hc
      by_cases hcb : c = b
      · subst hcb
        exact hsound.split hfuse.2 (hnotin _ hc) hn hlt (by rw [hbl, if_pos rfl]) hfrf hfrr
          fun g hg hgf ↦ hfro g hgf fun heq ↦ hnotin _ hc (heq ▸ hg)
      · apply hsound.congr (by rw [hbl, if_neg hcb])
        intro g hg
        apply samePlace_of_eq
        exact hfro g (fun heq ↦ hcb (heq ▸ hinv.own_block c hc g hg).symm)
          fun heq ↦ hnotin c hc (heq ▸ hg)
  have hinv' : Inv now (r :: held) s' := by
    apply hinv.hold hgeo hr huse hpools hpool
    intro g hg
    apply hfro g
    · rintro rfl
      exact hg (hinv.held_out g hf)
    · rintro rfl
      exact hg (hinv.pool_of_not_inUse hr)
  refine ⟨s', r, hrun, hinv', ⟨?_, ?_, ?_, ?_, ?_, ?_, hbytes⟩, hr, hfrf, hfrr⟩
  · intro g hg hu
    exact hfro g (by simpa using hg) fun heq ↦ hr (heq ▸ hu)
  · intro g _ hu hg
    rw [hpool] at hg
    exact hu (hinv.inUse_of_pool hg)
  · exact fun g hu ↦ (huse g).mpr (Or.inr hu)
  · exact fun c hc ↦ hus ▸ hc
  · exact fun c _ ↦ hblstart c
  · exact fun c _ ↦ hblsize c

/-! ## New blocks -/

/-- What `malloc` promises for a block: an address range that a user program can have and that meets
no block in use. -/
structure FreshRegion (s : Allocator) (blk size : ℤ) : Prop where
  pos : 0 < blk
  le : blk + size ≤ 2 ^ 63
  apart : ∀ b ∈ s.blockUsedList, Apart blk size (s.blocks b).start (s.blocks b).size

instance (s : Allocator) (blk size : ℤ) : Decidable (FreshRegion s blk size) :=
  decidable_of_iff (0 < blk ∧ blk + size ≤ 2 ^ 63 ∧
    ∀ b ∈ s.blockUsedList, Apart blk size (s.blocks b).start (s.blocks b).size)
    ⟨fun h ↦ ⟨h.1, h.2.1, h.2.2⟩, fun h ↦ ⟨h.pos, h.le, h.apart⟩⟩

/-- A block that is one fragment is sound. -/
theorem blockSound_single {s' : Allocator} {b : ℕ} {req blk : ℤ} (hreq : 0 < req)
    (hlt : req < 2 ^ 31) (hpos : 0 < blk) (hle : blk + req ≤ 2 ^ 63)
    (hblock : s'.blocks b = ⟨[f], req, blk, blk + req - 1⟩)
    (hfrag : s'.frags f = ⟨b, none, req, blk, blk + req - 1, 0⟩) : BlockSound s' b := by
  have hstart : s'.start f = blk := by rw [Allocator.start, hfrag]
  have hsize : s'.size f = req := by rw [Allocator.size, hfrag]
  constructor <;> rw [hblock]
  · intro g hg
    rw [List.mem_singleton.mp hg, hfrag]
  · exact hpos
  · exact hreq
  · exact hlt
  · exact hle
  · exact Tiles.single hstart hsize hreq
  · intro g hg
    rw [List.mem_singleton.mp hg, hfrag]
    change blk + req ≤ blk + req - 1 + 1
    omega
  · intro g hg _
    rw [List.mem_singleton.mp hg, hstart, hsize, hfrag]
    change blk + req - 1 + 1 = blk + req
    omega

/-- A new block becomes one held fragment. -/
theorem Inv.newBlock (pl : Platform) (hinv : Inv now held s) {req blk : ℤ} (hreq : 0 < req)
    (hlt : req < 2 ^ 31) (hregion : FreshRegion s blk req) :
    ∃ s' f, newBlock pl s req blk = some (s', f) ∧ Inv now (f :: held) s' ∧ Beside [f] s s' ∧
      ¬ InUse s f ∧ s'.size f = req := by
  obtain ⟨s₁, b, hget, hb, hfrags₁, hblocks₁, hpools₁, hused₁, hffree₁, hbytes₁, hkeepsb⟩ :=
    memoryBlockGetNew_spec (s := s.countMalloc req) pl hinv.block_records
  set block : Block :=
    { fragmentList := [], size := req, start := blk, endAddr := blk + req - 1 } with hblock
  have hffree : (s₁.setBlock b block).fragmentFreeList.Keeps (InUse s) := by
    rw [Allocator.fragmentFreeList_setBlock, hffree₁]
    exact hinv.fragment_records
  obtain ⟨s₂, f, hgetf, hf, hfrags₂, hblocks₂, hpools₂, hused₂, hbfree₂, hbytes₂, hkeepsf⟩ :=
    memoryFragmentGetNew_spec pl hffree
  set fragment : Fragment :=
    { block := b, pool := none, size := req, start := blk, endAddr := blk + req - 1,
      timestamp := 0 } with hfragment
  set s' := addToBlock (s₂.setFrag f fragment) b f with hs'
  have hrun : Memory.newBlock pl s req blk = some (s', f) := by
    simp only [Memory.newBlock, hget, Option.bind_eq_bind, Option.bind_some, ← hblock, hgetf]
    rfl
  -- the new state, field by field
  have hfr : ∀ g, s'.frags g = if g = f then fragment else s.frags g := by
    intro g
    simp [hs', addToBlock, hfrags₂, hfrags₁]
  have hfrf : s'.frags f = fragment := by rw [hfr, if_pos rfl]
  have hfro : ∀ g, g ≠ f → s'.frags g = s.frags g := fun g hg ↦ by rw [hfr, if_neg hg]
  have hbl : ∀ c, s'.blocks c =
      if c = b then { block with fragmentList := [f] } else s.blocks c := by
    intro c
    by_cases hc : c = b
    · simp [hs', addToBlock, hblocks₂, hc, hblock]
    · simp [hs', addToBlock, hblocks₂, hc, hblocks₁, Allocator.countMalloc]
  have hblb : s'.blocks b = { block with fragmentList := [f] } := by rw [hbl, if_pos rfl]
  have hus : ∀ c, c ∈ s'.blockUsedList ↔ c ∈ s.blockUsedList ∨ c = b := by
    intro c
    simp [hs', addToBlock, hused₂, hused₁, Allocator.countMalloc]
  have hblo : ∀ c ∈ s.blockUsedList, s'.blocks c = s.blocks c := by
    intro c hc
    have hcb : c ≠ b := fun heq ↦ hb (heq ▸ hc)
    rw [hbl, if_neg hcb]
  have hnotin : ∀ c ∈ s.blockUsedList, f ∉ (s.blocks c).fragmentList := fun c hc hmem ↦
    hf (hinv.inUse_of_mem hc hmem)
  have hne : ∀ c ∈ s.blockUsedList, ∀ g ∈ (s.blocks c).fragmentList, g ≠ f := fun c hc g hg heq ↦
    hnotin c hc (heq ▸ hg)
  have huse : ∀ g, InUse s' g ↔ g = f ∨ InUse s g := by
    intro g
    rw [InUse, hus]
    by_cases hgf : g = f
    · simp [hgf, hfrf, hfragment, hblb]
    · rw [hfro g hgf, hbl]
      by_cases hgb : (s.frags g).block = b
      · have hnu : ¬ InUse s g := fun hu ↦ hb (hgb ▸ hu.1)
        simp [hgb, hgf, hnu]
      · simp [hgb, hgf, InUse]
  have hsizef : s'.size f = req := by rw [Allocator.size, hfrf]
  have hpool : ∀ g, (s'.frags g).pool = (s.frags g).pool := by
    intro g
    by_cases hgf : g = f
    · rw [hgf, hfrf, hinv.pool_of_not_inUse hf]
    · rw [hfro g hgf]
  have hgeo : Geometry s' := by
    apply geometry_of_blocks
    · have hlist : s'.blockUsedList = s.blockUsedList ++ [b] := by
        simp [hs', addToBlock, hused₂, hused₁, Allocator.countMalloc]
      rw [hlist, List.nodup_append]
      exact ⟨hinv.used_nodup, List.nodup_singleton b, fun x hx y hy heq ↦
        hb (by rwa [← List.mem_singleton.mp hy, ← heq])⟩
    · exact hkeepsf.congr huse
    · have hfree : s'.blockFreeList = s₁.blockFreeList := hbfree₂
      rw [hfree]
      refine hkeepsb.congr fun x ↦ ?_
      rw [hus, hused₁, List.mem_append, List.mem_singleton]
      rfl
    · intro c hc d hd hcd
      rcases (hus c).mp hc with hc' | hcb
      · rcases (hus d).mp hd with hd' | hdb
        · rw [hblo c hc', hblo d hd']
          exact hinv.apart c hc' d hd' hcd
        · rw [hblo c hc', hdb, hblb]
          exact (hregion.apart c hc').symm
      · rcases (hus d).mp hd with hd' | hdb
        · rw [hblo d hd', hcb, hblb]
          exact hregion.apart d hd'
        · exact absurd (hcb.trans hdb.symm) hcd
    · intro c hc
      rcases (hus c).mp hc with hc | rfl
      · apply (hinv.toGeometry.blockSound hc).congr (hblo c hc)
        exact fun g hg ↦ samePlace_of_eq (hfro g (hne c hc g hg))
      · exact blockSound_single hreq hlt hregion.pos hregion.le hblb hfrf
  have hinv' : Inv now (f :: held) s' := by
    apply hinv.hold hgeo hf huse (hpools₂.trans hpools₁) hpool
    intro g hg
    apply hfro g
    rintro rfl
    exact hg (hinv.pool_of_not_inUse hf)
  refine ⟨s', f, hrun, hinv', ⟨?_, ?_, ?_, ?_, ?_, ?_, ?_⟩, hf, hsizef⟩
  · exact fun g hg _ ↦ hfro g (by simpa using hg)
  · intro g _ hu hg
    rw [hpool] at hg
    exact hu (hinv.inUse_of_pool hg)
  · exact fun g hu ↦ (huse g).mpr (Or.inr hu)
  · exact fun c hc ↦ (hus c).mpr (Or.inl hc)
  · exact fun c hc ↦ by rw [hblo c hc]
  · exact fun c hc ↦ by rw [hblo c hc]
  · exact hbytes₂.trans hbytes₁

/-! ## Giving a block back -/

/-- The end of `releaseWhole`, for a held fragment. -/
def releaseHeld (s : Allocator) (f : ℕ) : Allocator :=
  memoryBlockRelease (memoryFragmentRelease s f) (s.frags f).block

/-- Releasing a held fragment that is its whole block. -/
theorem Inv.release (hinv : Inv now (f :: held) s)
    (hwhole : s.size f = (s.blocks (s.frags f).block).size) :
    Inv now held (releaseHeld s f) ∧ (releaseHeld s f).frags = s.frags ∧
      (releaseHeld s f).pools = s.pools ∧
      (releaseHeld s f).blockUsedList = s.blockUsedList.erase (s.frags f).block ∧
      (∀ c, c ≠ (s.frags f).block → (releaseHeld s f).blocks c = s.blocks c) ∧
      (releaseHeld s f).memAllocTrueBytes =
        (s.memAllocTrueBytes - (s.blocks (s.frags f).block).size) % 2 ^ 64 ∧
      (releaseHeld s f).memAllocBytes = s.memAllocBytes := by
  have hfuse : InUse s f := hinv.inUse_of_held (by simp)
  set b := (s.frags f).block with hb
  have hbused : b ∈ s.blockUsedList := hfuse.1
  have honly : (s.blocks b).fragmentList = [f] := (hinv.tiles b hbused).eq_singleton hfuse.2 hwhole
  have hstart : (s.blocks b).start ≠ 0 := (hinv.start_pos b hbused).ne'
  have hnodup := List.nodup_cons.mp hinv.held_nodup
  set s' := releaseHeld s f with hs'
  -- `block->start` is not `NULL`, so the block is freed
  have hform : s' =
      { s with
        blockUsedList := s.blockUsedList.erase b
        blockFreeList := s.blockFreeList.put b
        fragmentFreeList := s.fragmentFreeList.put f
        memAllocBlocks := s.memAllocBlocks - 1
        memAllocTrueBytes := (s.memAllocTrueBytes - (s.blocks b).size) % 2 ^ 64
        blocks := s'.blocks } := by
    simp [hs', releaseHeld, memoryBlockRelease, memoryFragmentRelease, ← hb, hstart,
      Allocator.setBlock]
  have hfr : s'.frags = s.frags := by rw [hform]
  have hpools : s'.pools = s.pools := by rw [hform]
  have hused : s'.blockUsedList = s.blockUsedList.erase b := by rw [hform]
  have hbl : ∀ c, c ≠ b → s'.blocks c = s.blocks c := by
    intro c hc
    simp [hs', releaseHeld, memoryBlockRelease, memoryFragmentRelease, ← hb, hstart, hc]
  have hmem : ∀ c, c ∈ s'.blockUsedList ↔ c ≠ b ∧ c ∈ s.blockUsedList := fun c ↦ by
    rw [hused, hinv.used_nodup.mem_erase_iff]
  have huse : ∀ g, InUse s' g ↔ InUse s g ∧ g ≠ f := by
    intro g
    rw [InUse, hmem, hfr]
    constructor
    · rintro ⟨⟨hgb, hgu⟩, hgl⟩
      rw [hbl _ hgb] at hgl
      exact ⟨⟨hgu, hgl⟩, fun heq ↦ hgb (by rw [heq])⟩
    · rintro ⟨hgu, hgf⟩
      have hgb : (s.frags g).block ≠ b := by
        intro heq
        have hgl := hgu.2
        rw [heq, honly] at hgl
        exact hgf (List.mem_singleton.mp hgl)
      exact ⟨⟨hgb, hgu.1⟩, by rw [hbl _ hgb]; exact hgu.2⟩
  have hplace : ∀ g, SamePlace s s' g := fun g ↦ samePlace_of_eq (congrFun hfr g)
  have hgeo : Geometry s' := by
    apply geometry_of_blocks
    · rw [hused]
      exact hinv.used_nodup.erase b
    · have hfree : s'.fragmentFreeList = s.fragmentFreeList.put f := by rw [hform]
      rw [hfree]
      exact (hinv.fragment_records.put hfuse).congr huse
    · have hfree : s'.blockFreeList = s.blockFreeList.put b := by rw [hform]
      rw [hfree]
      exact (hinv.block_records.put hbused).congr fun c ↦ (hmem c).trans And.comm
    · intro c hc d hd hne
      obtain ⟨hcb, hc⟩ := (hmem c).mp hc
      obtain ⟨hdb, hd⟩ := (hmem d).mp hd
      rw [hbl c hcb, hbl d hdb]
      exact hinv.apart c hc d hd hne
    · intro c hc
      obtain ⟨hcb, hc⟩ := (hmem c).mp hc
      exact (hinv.toGeometry.blockSound hc).congr (hbl c hcb) fun g _ ↦ hplace g
  refine ⟨⟨hgeo, hnodup.2, ?_, ?_, ?_, ?_⟩, hfr, hpools, hused, hbl, by rw [hform], by rw [hform]⟩
  · intro g hg
    rw [hfr]
    exact hinv.held_out g (List.mem_cons_of_mem _ hg)
  · intro g
    rw [huse, hinv.member, hfr, List.mem_cons]
    by_cases hgf : g = f
    · simp [hgf, hinv.held_out f (by simp), hnodup.1]
    · simp [hgf]
  · intro pool
    exact (hinv.index pool).congr (by rw [hpools]) (fun g ↦ by rw [hfr])
      (fun g _ ↦ (hplace g).start) (fun g _ ↦ (hplace g).size)
  · intro g hg
    rw [hfr] at hg ⊢
    exact hinv.stamped g hg

end HavokMud.Memory
