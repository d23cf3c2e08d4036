import HavokMud.Interval.Tiling
import HavokMud.Memory.Allocator
import HavokMud.Memory.Indexes

/-!
# The invariant of the allocator

Between two edits of the pools the fragments of every block tile it, and every fragment is indexed
by the pool it names.  A fragment taken out of its pool and not yet put back is *held*.  The lemmas
of this module and the next are the steps every function of `memory.c` is made of; here a fragment
is taken out of a pool or put into one, and its place does not change.
-/

namespace HavokMud.Memory

open BinaryTree BTree SearchTree HavokMud.Interval Records

/-- The fragment is on the list of a block in use. -/
def InUse (s : Allocator) (f : ℕ) : Prop :=
  (s.frags f).block ∈ s.blockUsedList ∧ f ∈ (s.blocks (s.frags f).block).fragmentList

/-- The part of the invariant that concerns the place of blocks and fragments. -/
structure Geometry (s : Allocator) : Prop where
  used_nodup : s.blockUsedList.Nodup
  own_block : ∀ b ∈ s.blockUsedList, ∀ f ∈ (s.blocks b).fragmentList, (s.frags f).block = b
  fragment_records : s.fragmentFreeList.Keeps (InUse s)
  block_records : s.blockFreeList.Keeps (· ∈ s.blockUsedList)
  start_pos : ∀ b ∈ s.blockUsedList, 0 < (s.blocks b).start
  size_pos : ∀ b ∈ s.blockUsedList, 0 < (s.blocks b).size
  size_lt : ∀ b ∈ s.blockUsedList, (s.blocks b).size < 2 ^ 31
  end_le : ∀ b ∈ s.blockUsedList, (s.blocks b).start + (s.blocks b).size ≤ 2 ^ 63
  apart : ∀ b ∈ s.blockUsedList, ∀ c ∈ s.blockUsedList, b ≠ c →
    Apart (s.blocks b).start (s.blocks b).size (s.blocks c).start (s.blocks c).size
  tiles : ∀ b ∈ s.blockUsedList,
    Tiles s.start s.size (s.blocks b).fragmentList (s.blocks b).start (s.blocks b).size
  /-- The `end` of a fragment lies at or behind the end of its block. -/
  behind : ∀ b ∈ s.blockUsedList, ∀ f ∈ (s.blocks b).fragmentList,
    (s.blocks b).start + (s.blocks b).size ≤ (s.frags f).endAddr + 1
  /-- A fragment that is the whole block ends with it. -/
  whole : ∀ b ∈ s.blockUsedList, ∀ f ∈ (s.blocks b).fragmentList, s.size f = (s.blocks b).size →
    (s.frags f).endAddr + 1 = s.start f + s.size f

/-- The invariant of the allocator at time `now`, while the fragments in `held` are out of their
pools. -/
structure Inv (now : ℤ) (held : List ℕ) (s : Allocator) : Prop extends Geometry s where
  held_nodup : held.Nodup
  held_out : ∀ f ∈ held, (s.frags f).pool = none
  member : ∀ f, InUse s f ↔ (s.frags f).pool ≠ none ∨ f ∈ held
  index : ∀ pool, Indexes s pool
  stamped : ∀ f, (s.frags f).pool = some .defer → (s.frags f).timestamp ≤ now + timeDefer

variable {s s' : Allocator} {now : ℤ} {held : List ℕ} {f g : ℕ} {pool : Pool}

/-! ## Single blocks -/

/-- What the place of one block and of its fragments has to be. -/
structure BlockSound (s : Allocator) (b : ℕ) : Prop where
  own_block : ∀ f ∈ (s.blocks b).fragmentList, (s.frags f).block = b
  start_pos : 0 < (s.blocks b).start
  size_pos : 0 < (s.blocks b).size
  size_lt : (s.blocks b).size < 2 ^ 31
  end_le : (s.blocks b).start + (s.blocks b).size ≤ 2 ^ 63
  tiles : Tiles s.start s.size (s.blocks b).fragmentList (s.blocks b).start (s.blocks b).size
  behind : ∀ f ∈ (s.blocks b).fragmentList,
    (s.blocks b).start + (s.blocks b).size ≤ (s.frags f).endAddr + 1
  whole : ∀ f ∈ (s.blocks b).fragmentList, s.size f = (s.blocks b).size →
    (s.frags f).endAddr + 1 = s.start f + s.size f

/-- A fragment keeps its place, whatever becomes of its pool and its time stamp. -/
structure SamePlace (s s' : Allocator) (f : ℕ) : Prop where
  block : (s'.frags f).block = (s.frags f).block
  start : s'.start f = s.start f
  size : s'.size f = s.size f
  endAddr : (s'.frags f).endAddr = (s.frags f).endAddr

theorem samePlace_of_eq (h : s'.frags f = s.frags f) : SamePlace s s' f := by
  constructor <;> simp only [Allocator.start, Allocator.size, h]

theorem BlockSound.congr {b : ℕ} (h : BlockSound s b) (hblock : s'.blocks b = s.blocks b)
    (hplace : ∀ g ∈ (s.blocks b).fragmentList, SamePlace s s' g) : BlockSound s' b where
  own_block g hg := by
    rw [hblock] at hg
    rw [(hplace g hg).block]
    exact h.own_block g hg
  start_pos := by rw [hblock]; exact h.start_pos
  size_pos := by rw [hblock]; exact h.size_pos
  size_lt := by rw [hblock]; exact h.size_lt
  end_le := by rw [hblock]; exact h.end_le
  tiles := by
    rw [hblock]
    exact h.tiles.congr (fun g hg ↦ (hplace g hg).start) (fun g hg ↦ (hplace g hg).size)
  behind g hg := by
    rw [hblock] at hg ⊢
    rw [(hplace g hg).endAddr]
    exact h.behind g hg
  whole g hg := by
    rw [hblock] at hg ⊢
    rw [(hplace g hg).endAddr, (hplace g hg).start, (hplace g hg).size]
    exact h.whole g hg

/-- The places are right if those of every block are. -/
theorem geometry_of_blocks (hnodup : s.blockUsedList.Nodup)
    (hfragments : s.fragmentFreeList.Keeps (InUse s))
    (hrecords : s.blockFreeList.Keeps (· ∈ s.blockUsedList))
    (hapart : ∀ b ∈ s.blockUsedList, ∀ c ∈ s.blockUsedList, b ≠ c →
      Apart (s.blocks b).start (s.blocks b).size (s.blocks c).start (s.blocks c).size)
    (hblocks : ∀ b ∈ s.blockUsedList, BlockSound s b) : Geometry s where
  used_nodup := hnodup
  own_block b hb := (hblocks b hb).own_block
  fragment_records := hfragments
  block_records := hrecords
  start_pos b hb := (hblocks b hb).start_pos
  size_pos b hb := (hblocks b hb).size_pos
  size_lt b hb := (hblocks b hb).size_lt
  end_le b hb := (hblocks b hb).end_le
  apart := hapart
  tiles b hb := (hblocks b hb).tiles
  behind b hb := (hblocks b hb).behind
  whole b hb := (hblocks b hb).whole

theorem Geometry.blockSound (hgeo : Geometry s) {b : ℕ} (hb : b ∈ s.blockUsedList) :
    BlockSound s b where
  own_block := hgeo.own_block b hb
  start_pos := hgeo.start_pos b hb
  size_pos := hgeo.size_pos b hb
  size_lt := hgeo.size_lt b hb
  end_le := hgeo.end_le b hb
  tiles := hgeo.tiles b hb
  behind := hgeo.behind b hb
  whole := hgeo.whole b hb

/-! ## Places -/

namespace Geometry

variable (hgeo : Geometry s)

include hgeo

theorem inUse_of_mem {b : ℕ} (hb : b ∈ s.blockUsedList) (hf : f ∈ (s.blocks b).fragmentList) :
    InUse s f := by
  have hblock := hgeo.own_block b hb f hf
  exact ⟨by rw [hblock]; exact hb, by rw [hblock]; exact hf⟩

theorem size_pos_of_inUse (hf : InUse s f) : 0 < s.size f :=
  (hgeo.tiles _ hf.1).pos f hf.2

theorem inside (hf : InUse s f) : (s.blocks (s.frags f).block).start ≤ s.start f ∧
    s.start f + s.size f ≤ (s.blocks (s.frags f).block).start + (s.blocks (s.frags f).block).size :=
  (hgeo.tiles _ hf.1).inside f hf.2

/-- The callbacks order all fragments in use. -/
theorem ordered (hf : InUse s f) : Ordered s f := by
  have hin := hgeo.inside hf
  have hpos := hgeo.size_pos_of_inUse hf
  have hstart := hgeo.start_pos _ hf.1
  have hsize := hgeo.size_lt _ hf.1
  have hend := hgeo.end_le _ hf.1
  exact ⟨by omega, by omega, by omega, by omega⟩

theorem start_pos_of_inUse (hf : InUse s f) : 0 < s.start f := by
  have hin := hgeo.inside hf
  have hstart := hgeo.start_pos _ hf.1
  omega

/-- No two fragments in use meet. -/
theorem fragments_apart (hf : InUse s f) (hg : InUse s g) (hne : f ≠ g) :
    Apart (s.start f) (s.size f) (s.start g) (s.size g) := by
  by_cases hblock : (s.frags f).block = (s.frags g).block
  · exact (hgeo.tiles _ hf.1).apart f hf.2 g (by rw [hblock]; exact hg.2) hne
  · have hin := hgeo.inside hf
    have hing := hgeo.inside hg
    exact (hgeo.apart _ hf.1 _ hg.1 hblock).mono hin.1 hin.2 hing.1 hing.2

theorem start_ne (hf : InUse s f) (hg : InUse s g) (hne : f ≠ g) : s.start f ≠ s.start g := by
  have hposf := hgeo.size_pos_of_inUse hf
  have hposg := hgeo.size_pos_of_inUse hg
  rcases hgeo.fragments_apart hf hg hne with hap | hap <;> omega

end Geometry

/-- Two states with the same blocks and the same places of fragments. -/
structure SamePlaces (s s' : Allocator) : Prop where
  blocks : s'.blocks = s.blocks
  used : s'.blockUsedList = s.blockUsedList
  blockFree : s'.blockFreeList = s.blockFreeList
  fragmentFree : s'.fragmentFreeList = s.fragmentFreeList
  block : ∀ f, (s'.frags f).block = (s.frags f).block
  start : s'.start = s.start
  size : s'.size = s.size
  endAddr : ∀ f, (s'.frags f).endAddr = (s.frags f).endAddr

theorem SamePlaces.inUse_iff (h : SamePlaces s s') : InUse s' f ↔ InUse s f := by
  rw [InUse, InUse, h.block f, h.used, h.blocks]

theorem Geometry.congr (hgeo : Geometry s) (h : SamePlaces s s') : Geometry s' := by
  apply geometry_of_blocks
  · rw [h.used]
    exact hgeo.used_nodup
  · rw [h.fragmentFree]
    exact hgeo.fragment_records.congr fun g ↦ h.inUse_iff
  · rw [h.blockFree, h.used]
    exact hgeo.block_records
  · rw [h.used, h.blocks]
    exact hgeo.apart
  · intro b hb
    rw [h.used] at hb
    apply (hgeo.blockSound hb).congr (congrFun h.blocks b)
    exact fun g _ ↦ ⟨h.block g, congrFun h.start g, congrFun h.size g, h.endAddr g⟩

theorem samePlaces_repool (s : Allocator) (pool : Pool) (trees : MemoryPool) (f : ℕ)
    (o : Option Pool) : SamePlaces s (repool s pool trees f o) :=
  ⟨rfl, rfl, rfl, rfl, fun g ↦ by simp, by simp, by simp, fun g ↦ by simp⟩

namespace Inv

theorem inUse_of_pool (hinv : Inv now held s) (hf : (s.frags f).pool = some pool) : InUse s f :=
  (hinv.member f).mpr (Or.inl (by simp [hf]))

theorem inUse_of_held (hinv : Inv now held s) (hf : f ∈ held) : InUse s f :=
  (hinv.member f).mpr (Or.inr hf)

theorem ordered_of_pool (hinv : Inv now held s) :
    ∀ g, (s.frags g).pool = some pool → Ordered s g :=
  fun _ hg ↦ hinv.ordered (hinv.inUse_of_pool hg)

theorem mono (hinv : Inv now held s) {later : ℤ} (hle : now ≤ later) : Inv later held s :=
  { hinv with stamped := fun f hf ↦ (hinv.stamped f hf).trans (by omega) }

/-- Time stamps may change while a fragment is held. -/
theorem setTimestamp (hinv : Inv now held s) (hf : f ∈ held) (timestamp : ℤ) :
    Inv now held (s.setFrag f { s.frags f with timestamp := timestamp }) := by
  have hpool : ∀ g, ((s.setFrag f { s.frags f with timestamp := timestamp }).frags g).pool =
      (s.frags g).pool := by
    intro g
    by_cases hg : g = f <;> simp [hg]
  have hplaces : SamePlaces s (s.setFrag f { s.frags f with timestamp := timestamp }) := by
    refine ⟨rfl, rfl, rfl, rfl, fun g ↦ ?_, ?_, ?_, fun g ↦ ?_⟩
    · by_cases hg : g = f <;> simp [hg]
    · funext g
      by_cases hg : g = f <;> simp [Allocator.start, hg]
    · funext g
      by_cases hg : g = f <;> simp [Allocator.size, hg]
    · by_cases hg : g = f <;> simp [hg]
  refine ⟨hinv.toGeometry.congr hplaces, hinv.held_nodup, fun g hg ↦ ?_, fun g ↦ ?_, fun pool ↦ ?_,
    fun g hg ↦ ?_⟩
  · rw [hpool]
    exact hinv.held_out g hg
  · rw [hplaces.inUse_iff, hpool]
    exact hinv.member g
  · exact (hinv.index pool).congr rfl (fun g ↦ by rw [hpool]) (fun g _ ↦ by rw [hplaces.start])
      (fun g _ ↦ by rw [hplaces.size])
  · rw [hpool] at hg
    have hgf : g ≠ f := by
      rintro rfl
      rw [hinv.held_out g hf] at hg
      simp at hg
    rw [Allocator.frags_setFrag, if_neg hgf]
    exact hinv.stamped g hg

/-- The counters are no part of the invariant. -/
theorem addBytes (hinv : Inv now held s) (bytes : ℤ) : Inv now held (s.addBytes bytes) :=
  ⟨hinv.toGeometry.congr ⟨rfl, rfl, rfl, rfl, fun _ ↦ rfl, rfl, rfl, fun _ ↦ rfl⟩, hinv.held_nodup,
    hinv.held_out, hinv.member,
    fun pool ↦ (hinv.index pool).congr rfl (fun _ ↦ Iff.rfl) (fun _ _ ↦ rfl) (fun _ _ ↦ rfl),
    hinv.stamped⟩

/-- Take a fragment out of the pool it names. -/
theorem remove (hinv : Inv now held s) (hf : (s.frags f).pool = some pool) :
    ∃ trees, memoryFragmentRemove s pool f = repool s pool trees f none ∧
      Inv now (f :: held) (repool s pool trees f none) := by
  obtain ⟨trees, heq, hidx⟩ := indexes_remove hinv.index (fun g pool ↦ hinv.ordered_of_pool g) hf
  have hnotheld : f ∉ held := fun hmem ↦ by simp [hinv.held_out f hmem] at hf
  have hplaces := samePlaces_repool s pool trees f none
  refine ⟨trees, heq, hinv.toGeometry.congr hplaces,
    List.nodup_cons.mpr ⟨hnotheld, hinv.held_nodup⟩,
    fun g hg ↦ ?_, fun g ↦ ?_, hidx, fun g hg ↦ ?_⟩
  · rcases List.mem_cons.mp hg with rfl | hg
    · simp
    · simp [hinv.held_out g hg]
  · rw [hplaces.inUse_iff, hinv.member g, pool_repool, List.mem_cons]
    by_cases hgf : g = f
    · simp [hgf, hf]
    · simp [hgf]
  · rw [pool_repool] at hg
    split_ifs at hg with hgf
    rw [timestamp_repool]
    exact hinv.stamped g hg

theorem pool_of_not_inUse (hinv : Inv now held s) (hf : ¬ InUse s f) : (s.frags f).pool = none := by
  by_contra hne
  exact hf ((hinv.member f).mpr (Or.inl hne))

/-- A new fragment is held, and those in the pools are as before. -/
theorem hold (hinv : Inv now held s) (hgeo : Geometry s') (hf : ¬ InUse s f)
    (huse : ∀ g, InUse s' g ↔ g = f ∨ InUse s g) (hpools : s'.pools = s.pools)
    (hpool : ∀ g, (s'.frags g).pool = (s.frags g).pool)
    (hfrags : ∀ g, (s.frags g).pool ≠ none → s'.frags g = s.frags g) :
    Inv now (f :: held) s' := by
  refine ⟨hgeo, ?_, ?_, ?_, ?_, ?_⟩
  · exact List.nodup_cons.mpr ⟨fun hmem ↦ hf (hinv.inUse_of_held hmem), hinv.held_nodup⟩
  · intro g hg
    rw [hpool]
    rcases List.mem_cons.mp hg with rfl | hg
    · exact hinv.pool_of_not_inUse hf
    · exact hinv.held_out g hg
  · intro g
    rw [huse, hinv.member, hpool, List.mem_cons]
    tauto
  · intro pool
    have hplace : ∀ g, (s.frags g).pool = some pool → SamePlace s s' g := by
      intro g hg
      apply samePlace_of_eq
      exact hfrags g (by simp [hg])
    exact (hinv.index pool).congr (congrFun hpools pool) (fun g ↦ by rw [hpool])
      (fun g hg ↦ (hplace g hg).start) (fun g hg ↦ (hplace g hg).size)
  · intro g hg
    rw [hpool] at hg
    rw [hfrags g (by simp [hg])]
    exact hinv.stamped g hg

/-- Put a held fragment into a pool. -/
theorem add (hinv : Inv now (f :: held) s) (pool : Pool)
    (hstamp : pool = .defer → (s.frags f).timestamp ≤ now + timeDefer) :
    ∃ trees, memoryFragmentAdd s pool f = some (repool s pool trees f (some pool)) ∧
      Inv now held (repool s pool trees f (some pool)) := by
  have hfout : (s.frags f).pool = none := hinv.held_out f (by simp)
  have hfuse : InUse s f := hinv.inUse_of_held (by simp)
  have hnodup := List.nodup_cons.mp hinv.held_nodup
  have hfresh : ∀ g, (s.frags g).pool = some pool → s.start g ≠ s.start f := by
    intro g hg
    have hgf : g ≠ f := by
      rintro rfl
      simp [hfout] at hg
    exact hinv.start_ne (hinv.inUse_of_pool hg) hfuse hgf
  obtain ⟨trees, heq, hidx⟩ := indexes_add hinv.index (fun g pool ↦ hinv.ordered_of_pool g) hfout
    (hinv.ordered hfuse) hfresh
  have hplaces := samePlaces_repool s pool trees f (some pool)
  refine ⟨trees, heq, hinv.toGeometry.congr hplaces, hnodup.2, fun g hg ↦ ?_, fun g ↦ ?_, hidx,
    fun g hg ↦ ?_⟩
  · have hgf : g ≠ f := fun heq ↦ hnodup.1 (heq ▸ hg)
    simp [hgf, hinv.held_out g (List.mem_cons_of_mem _ hg)]
  · rw [hplaces.inUse_iff, hinv.member g, pool_repool, List.mem_cons]
    by_cases hgf : g = f
    · simp [hgf]
    · simp [hgf]
  · rw [pool_repool] at hg
    rw [timestamp_repool]
    split_ifs at hg with hgf
    · rw [hgf]
      exact hstamp (by simpa using hg)
    · exact hinv.stamped g hg

end Inv

/-- The invariant holds after `meminit`. -/
theorem inv_meminit (now : ℤ) : Inv now [] meminit := by
  have hnone : ∀ f, ¬ InUse meminit f := fun f hf ↦ absurd hf.1 (by simp [meminit])
  have hgeo : Geometry meminit := by
    apply geometry_of_blocks
    · exact List.nodup_nil
    · exact ⟨List.nodup_nil, by simp [meminit], by simp [meminit], fun f hf ↦ absurd hf (hnone f)⟩
    · exact ⟨List.nodup_nil, by simp [meminit], by simp [meminit], by simp [meminit]⟩
    · exact fun b hb ↦ absurd hb (by simp [meminit])
    · exact fun b hb ↦ absurd hb (by simp [meminit])
  refine ⟨hgeo, List.nodup_nil, ?_, ?_, ?_, ?_⟩
  · simp
  · intro f
    have hpool : (meminit.frags f).pool = none := rfl
    simp [hnone f, hpool]
  · exact fun pool ↦ ⟨by simp [meminit], sorted_nil, sorted_nil, by simp [meminit],
      by simp [meminit], by simp [meminit], by simp [meminit]⟩
  · simp [meminit]

/-! ## Frames -/

/-- Nothing in use but the fragments in `touched` has changed, no block was given back, and no other
fragment was handed out. -/
structure Beside (touched : List ℕ) (s s' : Allocator) : Prop where
  frags : ∀ g, g ∉ touched → InUse s g → s'.frags g = s.frags g
  fresh : ∀ g, g ∉ touched → ¬ InUse s g → (s'.frags g).pool ≠ some .alloc
  inUse : ∀ g, InUse s g → InUse s' g
  used : ∀ b ∈ s.blockUsedList, b ∈ s'.blockUsedList
  blockStart : ∀ b ∈ s.blockUsedList, (s'.blocks b).start = (s.blocks b).start
  blockSize : ∀ b ∈ s.blockUsedList, (s'.blocks b).size = (s.blocks b).size
  bytes : s'.memAllocBytes = s.memAllocBytes

namespace Beside

variable {touched touched' : List ℕ} {s₁ s₂ s₃ : Allocator}

theorem trans (h₁₂ : Beside touched s₁ s₂) (h₂₃ : Beside touched s₂ s₃) :
    Beside touched s₁ s₃ where
  frags g hg hu := (h₂₃.frags g hg (h₁₂.inUse g hu)).trans (h₁₂.frags g hg hu)
  fresh g hg hu := by
    by_cases hu₂ : InUse s₂ g
    · rw [h₂₃.frags g hg hu₂]
      exact h₁₂.fresh g hg hu
    · exact h₂₃.fresh g hg hu₂
  inUse g hu := h₂₃.inUse g (h₁₂.inUse g hu)
  used b hb := h₂₃.used b (h₁₂.used b hb)
  blockStart b hb := (h₂₃.blockStart b (h₁₂.used b hb)).trans (h₁₂.blockStart b hb)
  blockSize b hb := (h₂₃.blockSize b (h₁₂.used b hb)).trans (h₁₂.blockSize b hb)
  bytes := h₂₃.bytes.trans h₁₂.bytes

theorem mono (h : Beside touched s s') (hsub : touched ⊆ touched') : Beside touched' s s' :=
  { h with
    frags := fun g hg ↦ h.frags g fun hmem ↦ hg (hsub hmem)
    fresh := fun g hg ↦ h.fresh g fun hmem ↦ hg (hsub hmem) }

/-- A fragment that was not in use before need not be named. -/
theorem drop (h : Beside (g :: touched) s s') (hg : ¬ InUse s g)
    (hpool : (s'.frags g).pool ≠ some .alloc) : Beside touched s s' :=
  { h with
    frags := fun x hx hu ↦ h.frags x (by
      rw [List.mem_cons, not_or]
      exact ⟨fun heq ↦ hg (heq ▸ hu), hx⟩) hu
    fresh := fun x hx hu ↦ by
      by_cases hxg : x = g
      · exact hxg ▸ hpool
      · exact h.fresh x (by simp [hxg, hx]) hu }

end Beside

theorem Inv.beside_repool (hinv : Inv now held s) (pool : Pool) (trees : MemoryPool) (f : ℕ)
    (o : Option Pool) : Beside [f] s (repool s pool trees f o) where
  frags g hg _ := by
    have hgf : g ≠ f := by simpa using hg
    simp [repool, hgf]
  fresh g hg hu := by
    have hgf : g ≠ f := by simpa using hg
    rw [pool_repool, if_neg hgf]
    exact fun hpool ↦ hu (hinv.inUse_of_pool hpool)
  inUse _ hu := (samePlaces_repool s pool trees f o).inUse_iff.mpr hu
  used _ hb := hb
  blockStart _ _ := rfl
  blockSize _ _ := rfl
  bytes := rfl

theorem Inv.beside_setTimestamp (hinv : Inv now held s) (f : ℕ) (timestamp : ℤ) :
    Beside [f] s (s.setFrag f { s.frags f with timestamp := timestamp }) where
  frags g hg _ := by
    have hgf : g ≠ f := by simpa using hg
    simp [hgf]
  fresh g hg hu := by
    have hgf : g ≠ f := by simpa using hg
    rw [Allocator.frags_setFrag, if_neg hgf]
    exact fun hpool ↦ hu (hinv.inUse_of_pool hpool)
  inUse g hu := by
    by_cases hgf : g = f
    · subst hgf
      simpa [InUse] using hu
    · simpa [InUse, hgf] using hu
  used _ hb := hb
  blockStart _ _ := rfl
  blockSize _ _ := rfl
  bytes := rfl

end HavokMud.Memory
