import HavokMud.Memory.Requests
import Mathlib.Algebra.BigOperators.Group.List.Basic

/-!
# What a coalescing pass does

`memoryFragmentSplit` adds the size of the part it hands out to the `end` of the fragment, so that
the `end` of every fragment lies at or behind the end of its block.  The tests of the coalescing
pass compare these ends with the starts of other fragments of the block and never succeed: in every
state that satisfies the invariant a pass joins nothing, and releases exactly the blocks that were
never cut and whose single fragment was freed long enough ago.
-/

namespace HavokMud.Memory

open BinaryTree BTree SearchTree HavokMud.Interval

variable {s s' : Allocator} {now time : ℤ} {held : List ℕ} {f : ℕ}

theorem nextAfter_append {pre rest : List ℕ} {x : ℕ} (hx : x ∉ pre) :
    nextAfter (pre ++ x :: rest) x = rest.head? := by
  have hpre : ∀ y ∈ pre, decide (y ≠ x) = true := fun y hy ↦
    decide_eq_true fun heq ↦ hx (heq ▸ hy)
  rw [nextAfter, List.dropWhile_append_of_pos hpre]
  simp

/-! ## No fragment is joined -/

/-- No fragment of a block starts right behind the `end` of another. -/
theorem Geometry.end_ne_start (hgeo : Geometry s) {b g : ℕ} (hb : b ∈ s.blockUsedList)
    (hf : f ∈ (s.blocks b).fragmentList) (hg : g ∈ (s.blocks b).fragmentList) :
    (s.frags g).endAddr + 1 ≠ s.start f := by
  have hbehind := hgeo.behind b hb g hg
  have hin := (hgeo.tiles b hb).inside f hf
  have hpos := (hgeo.tiles b hb).pos f hf
  omega

theorem Geometry.coalesceBlock_eq (hgeo : Geometry s) {b : ℕ} (hb : b ∈ s.blockUsedList)
    (hf : f ∈ (s.blocks b).fragmentList) {pre rest : List ℕ}
    (hlist : (s.blocks b).fragmentList = pre ++ rest) {fuel : ℕ} (hfuel : rest.length ≤ fuel) :
    coalesceBlock f b time fuel s rest.head? = some s := by
  induction rest generalizing pre fuel with
  | nil => cases fuel <;> rfl
  | cons g rest ih =>
      cases fuel with
      | zero => simp at hfuel
      | succ fuel =>
          have hnodup := (hgeo.tiles b hb).nodup
          rw [hlist, List.nodup_append] at hnodup
          have hg : g ∉ pre := fun hmem ↦ hnodup.2.2 g hmem g (by simp) rfl
          have hgmem : g ∈ (s.blocks b).fragmentList := by simp [hlist]
          have hnext : nextAfter (s.blocks b).fragmentList g = rest.head? := by
            rw [hlist, nextAfter_append hg]
          have hlist' : (s.blocks b).fragmentList = (pre ++ [g]) ++ rest := by simp [hlist]
          have hrest := ih hlist' (Nat.le_of_succ_le_succ (by simpa using hfuel))
          simp only [List.head?_cons, coalesceBlock, hnext]
          by_cases hfg : f = g
          · rw [if_pos hfg]
            exact hrest
          · rw [if_neg hfg, if_neg (hgeo.end_ne_start hb hf hgmem),
              if_neg (hgeo.end_ne_start hb hgmem hf)]
            exact hrest

/-- The first loop of a pass changes nothing. -/
theorem Inv.coalesceLoop_eq (hinv : Inv now held s) {pre rest : List ℕ}
    (hlist : inorder (s.pools .defer).addrTree = pre ++ rest) {fuel : ℕ}
    (hfuel : rest.length ≤ fuel) : coalesceLoop time fuel s rest.head? = some s := by
  induction rest generalizing pre fuel with
  | nil => cases fuel <;> rfl
  | cons g rest ih =>
      cases fuel with
      | zero => simp at hfuel
      | succ fuel =>
          have hnodup := (hinv.index .defer).addr_sorted.nodup
          rw [hlist, List.nodup_append] at hnodup
          have hg : g ∉ pre := fun hmem ↦ hnodup.2.2 g hmem g (by simp) rfl
          have hpool : (s.frags g).pool = some .defer :=
            ((hinv.index .defer).addr_mem g).mp (by simp [hlist])
          have huse := hinv.inUse_of_pool hpool
          have hnext : findNext (s.pools .defer).addrTree g = rest.head? := by
            rw [findNext, hlist, nextAfter_append hg]
          have hlist' : inorder (s.pools .defer).addrTree = (pre ++ [g]) ++ rest := by simp [hlist]
          have hrest := ih hlist' (Nat.le_of_succ_le_succ (by simpa using hfuel))
          have hblock : coalesceBlock g (s.frags g).block time
              (2 * (s.blocks (s.frags g).block).fragmentList.length + 1) s
              (s.blocks (s.frags g).block).fragmentList.head? = some s :=
            hinv.coalesceBlock_eq huse.1 huse.2 (List.nil_append _).symm (by omega)
          simp only [List.head?_cons, coalesceLoop, hblock, ite_self, Option.bind_eq_bind,
            Option.bind_some, hnext]
          exact hrest

/-! ## The release of whole blocks -/

/-- The fragment is its whole block and its deferral is over. -/
def Expired (now : ℤ) (s : Allocator) (f : ℕ) : Prop :=
  (s.frags f).timestamp ≤ now ∧ s.size f = (s.blocks (s.frags f).block).size

/-- The sizes of all blocks in use. -/
def totalSize (s : Allocator) : ℤ :=
  (s.blockUsedList.map fun b ↦ (s.blocks b).size).sum

/-- What releases of blocks do: some blocks that consist of one freed fragment are gone, and nothing
else that is in use has changed. -/
structure Sweeps (now : ℤ) (s s' : Allocator) : Prop where
  used : ∀ b ∈ s'.blockUsedList, b ∈ s.blockUsedList
  blocks : ∀ b ∈ s'.blockUsedList, s'.blocks b = s.blocks b
  frags : ∀ f, InUse s' f → s'.frags f = s.frags f
  alloc : s'.pools .alloc = s.pools .alloc
  gone : ∀ b ∈ s.blockUsedList, b ∉ s'.blockUsedList →
    ∃ f, (s.blocks b).fragmentList = [f] ∧ (s.frags f).pool = some .defer ∧
      (s.frags f).timestamp ≤ now
  bytes : s'.memAllocBytes = s.memAllocBytes
  trueBytes : s'.memAllocTrueBytes % 2 ^ 64 =
    (s.memAllocTrueBytes - (totalSize s - totalSize s')) % 2 ^ 64

theorem Sweeps.refl (now : ℤ) (s : Allocator) : Sweeps now s s :=
  ⟨fun _ hb ↦ hb, fun _ _ ↦ rfl, fun _ _ ↦ rfl, rfl, fun _ hb hb' ↦ absurd hb hb', rfl, by simp⟩

theorem Sweeps.trans {s₁ s₂ s₃ : Allocator} (h₁₂ : Sweeps now s₁ s₂) (h₂₃ : Sweeps now s₂ s₃)
    (hinv₂ : Geometry s₂) : Sweeps now s₁ s₃ where
  used b hb := h₁₂.used b (h₂₃.used b hb)
  blocks b hb := (h₂₃.blocks b hb).trans (h₁₂.blocks b (h₂₃.used b hb))
  frags f hf := by
    have hf₂ : InUse s₂ f := by
      refine hinv₂.inUse_of_mem (h₂₃.used _ hf.1) ?_
      rw [← h₂₃.blocks _ hf.1]
      exact hf.2
    exact (h₂₃.frags f hf).trans (h₁₂.frags f hf₂)
  alloc := h₂₃.alloc.trans h₁₂.alloc
  gone b hb hb₃ := by
    by_cases hb₂ : b ∈ s₂.blockUsedList
    · obtain ⟨f, hlist, hpool, htime⟩ := h₂₃.gone b hb₂ hb₃
      have hf : InUse s₂ f := hinv₂.inUse_of_mem hb₂ (by simp [hlist])
      rw [h₁₂.blocks b hb₂] at hlist
      rw [h₁₂.frags f hf] at hpool htime
      exact ⟨f, hlist, hpool, htime⟩
    · exact h₁₂.gone b hb hb₂
  bytes := h₂₃.bytes.trans h₁₂.bytes
  trueBytes := by
    rw [h₂₃.trueBytes, Int.sub_emod, h₁₂.trueBytes, ← Int.sub_emod]
    congr 1
    omega

/-- The in-order list of a pool behind the removal of one of its fragments. -/
theorem Inv.inorder_remove (hinv : Inv now held s) {pool : Pool}
    (hf : (s.frags f).pool = some pool) :
    inorder ((memoryFragmentRemove s pool f).pools pool).addrTree =
      (inorder (s.pools pool).addrTree).erase f := by
  have hmem : f ∈ inorder (s.pools pool).addrTree := ((hinv.index pool).addr_mem f).mpr hf
  have hfound := withoutFound_eq hinv.ordered_of_pool (hinv.index pool).addr_sorted
    (fun g hg ↦ ((hinv.index pool).addr_mem g).mp hg) hmem
  have hkeep : (dropFromSizes s (s.pools pool) (s.size f) (s.start f)).addrTree =
      (s.pools pool).addrTree := by
    unfold dropFromSizes
    split
    · rfl
    · dsimp only
      split_ifs <;> rfl
  rw [memoryFragmentRemove, if_neg (not_not.mpr hf)]
  simp only [Allocator.pools_setFrag, Allocator.pools_setPool, if_true, hkeep, hfound]
  rw [treeRemove, inorder_balance, SearchTree.inorder_remove (hinv.index pool).addr_sorted.nodup]

/-- One turn of the second loop. -/
theorem Inv.releaseWhole (hinv : Inv now held s) (time : ℤ) (hf : (s.frags f).pool = some .defer) :
    Inv now held (releaseWhole time s f) ∧ Sweeps time s (releaseWhole time s f) ∧
      (inorder ((releaseWhole time s f).pools .defer).addrTree = inorder (s.pools .defer).addrTree ∨
        inorder ((releaseWhole time s f).pools .defer).addrTree =
          (inorder (s.pools .defer).addrTree).erase f) ∧
      (Expired time s f → (s.frags f).block ∉ (releaseWhole time s f).blockUsedList) ∧
      (∀ g, g ≠ f → InUse s g → InUse (releaseWhole time s f) g) := by
  by_cases hexp : Expired time s f
  · obtain ⟨trees, hremove, hinv₁⟩ := hinv.remove hf
    have hfuse := hinv.inUse_of_pool hf
    set s₁ := repool s .defer trees f none with hs₁
    have hblock : (s₁.frags f).block = (s.frags f).block := by simp [hs₁]
    have hwhole : s₁.size f = (s₁.blocks (s₁.frags f).block).size := by
      rw [hblock, hs₁, size_repool, blocks_repool]
      exact hexp.2
    obtain ⟨hinv₂, hfrags, hpools, hused, hblocks, htrue, hbytes⟩ := hinv₁.release hwhole
    have hrun : Memory.releaseWhole time s f = releaseHeld s₁ f := by
      have hguard : ¬ (time < (s.frags f).timestamp ∨
          (s.frags f).size ≠ (s.blocks (s.frags f).block).size) := by
        rw [not_or, not_lt, not_not]
        exact hexp
      simp only [Memory.releaseWhole, if_neg hguard, hremove, releaseHeld, hblock]
    have honly : (s.blocks (s.frags f).block).fragmentList = [f] :=
      (hinv.tiles _ hfuse.1).eq_singleton hfuse.2 hexp.2
    rw [hblock] at hused hblocks htrue
    have hmem : ∀ b, b ∈ (releaseHeld s₁ f).blockUsedList ↔
        b ≠ (s.frags f).block ∧ b ∈ s.blockUsedList := fun b ↦ by
      rw [hused]
      exact hinv.used_nodup.mem_erase_iff
    have hother : ∀ g, g ≠ f → (releaseHeld s₁ f).frags g = s.frags g := by
      intro g hg
      rw [hfrags, hs₁]
      simp [repool, hg]
    have hne : ∀ g, g ≠ f → InUse s g → (s.frags g).block ≠ (s.frags f).block := by
      intro g hg hgu heq
      have hgl := hgu.2
      rw [heq, honly] at hgl
      exact hg (List.mem_singleton.mp hgl)
    rw [hrun]
    refine ⟨hinv₂, ⟨?_, ?_, ?_, ?_, ?_, ?_, ?_⟩, Or.inr ?_, ?_, ?_⟩
    · exact fun b hb ↦ ((hmem b).mp hb).2
    · exact fun b hb ↦ hblocks b ((hmem b).mp hb).1
    · intro g hg
      by_cases hgf : g = f
      · rw [hgf] at hg
        have hgb := ((hmem _).mp hg.1).1
        rw [hfrags, hblock] at hgb
        exact absurd rfl hgb
      · exact hother g hgf
    · rw [hpools, hs₁, pools_repool, if_neg (by decide)]
    · intro b hb hb'
      have hbf : b = (s.frags f).block := by
        by_contra hne
        exact hb' ((hmem b).mpr ⟨hne, hb⟩)
      exact ⟨f, by rw [hbf, honly], hf, hexp.1⟩
    · rw [hbytes, hs₁, memAllocBytes_repool]
    · have hsum : totalSize s =
          (s.blocks (s.frags f).block).size + totalSize (releaseHeld s₁ f) := by
        have hperm := (List.perm_cons_erase hfuse.1).map fun b ↦ (s.blocks b).size
        have hrest : ((s.blockUsedList.erase (s.frags f).block).map fun b ↦ (s.blocks b).size) =
            (s.blockUsedList.erase (s.frags f).block).map
              fun b ↦ ((releaseHeld s₁ f).blocks b).size :=
          List.map_congr_left fun b hb ↦ by
            rw [hblocks b ((hinv.used_nodup.mem_erase_iff).mp hb).1, hs₁, blocks_repool]
        rw [totalSize, hperm.sum_eq, List.map_cons, List.sum_cons, hrest, totalSize, hused]
        rfl
      have hbefore : s₁.memAllocTrueBytes = s.memAllocTrueBytes ∧ s₁.blocks = s.blocks := ⟨rfl, rfl⟩
      rw [htrue, Int.emod_emod_of_dvd _ (dvd_refl _), hbefore.1, hbefore.2, hsum]
      congr 1
      omega
    · rw [hpools, ← hremove]
      exact hinv.inorder_remove hf
    · intro _ hmem'
      exact ((hmem _).mp hmem').1 rfl
    · intro g hg hgu
      have hgb := hne g hg hgu
      refine ⟨?_, ?_⟩
      · rw [hother g hg]
        exact (hmem _).mpr ⟨hgb, hgu.1⟩
      · rw [hother g hg, hblocks _ hgb]
        exact hgu.2
  · have hrun : Memory.releaseWhole time s f = s := by
      have hguard : time < (s.frags f).timestamp ∨
          (s.frags f).size ≠ (s.blocks (s.frags f).block).size := by
        by_contra hno
        rw [not_or, not_lt, not_not] at hno
        exact hexp hno
      simp only [Memory.releaseWhole, if_pos hguard]
    rw [hrun]
    exact ⟨hinv, Sweeps.refl _ _, Or.inl rfl, fun h ↦ absurd h hexp, fun _ _ hg ↦ hg⟩

/-- The second loop, from any of its items on. -/
theorem Inv.releaseLoop (hinv : Inv now held s) (time : ℤ) {pre rest : List ℕ}
    (hlist : inorder (s.pools .defer).addrTree = pre ++ rest) {fuel : ℕ}
    (hfuel : rest.length ≤ fuel) :
    ∃ s', releaseLoop time fuel s rest.head? = some s' ∧ Inv now held s' ∧ Sweeps time s s' ∧
      ∀ g ∈ rest, Expired time s g → (s.frags g).block ∉ s'.blockUsedList := by
  induction rest generalizing s pre fuel with
  | nil => exact ⟨s, by cases fuel <;> rfl, hinv, Sweeps.refl _ _, by simp⟩
  | cons f rest ih =>
      cases fuel with
      | zero => simp at hfuel
      | succ fuel =>
          have hnodup := (hinv.index .defer).addr_sorted.nodup
          have hmem : ∀ g ∈ f :: rest, (s.frags g).pool = some .defer := fun g hg ↦
            ((hinv.index .defer).addr_mem g).mp (by rw [hlist]; exact List.mem_append_right _ hg)
          have hf : f ∉ pre := by
            rw [hlist, List.nodup_append] at hnodup
            exact fun hmem ↦ hnodup.2.2 f hmem f (by simp) rfl
          have hnext : findNext (s.pools .defer).addrTree f = rest.head? := by
            rw [findNext, hlist, nextAfter_append hf]
          obtain ⟨hinv₁, hsweep₁, hlist₁, hgone₁, hkeep₁⟩ :=
            hinv.releaseWhole time (hmem f (by simp))
          -- the items that follow stay where they are, released or not
          obtain ⟨pre₁, hpre₁⟩ : ∃ pre₁,
              inorder ((Memory.releaseWhole time s f).pools .defer).addrTree = pre₁ ++ rest := by
            rcases hlist₁ with heq | heq
            · exact ⟨pre ++ [f], by simp [heq, hlist]⟩
            · exact ⟨pre, by rw [heq, hlist, List.erase_append_right _ hf, List.erase_cons_head]⟩
          obtain ⟨s', hrun, hinv', hsweep', hgone'⟩ :=
            ih hinv₁ hpre₁ (Nat.le_of_succ_le_succ (by simpa using hfuel))
          refine ⟨s', ?_, hinv', hsweep₁.trans hsweep' hinv₁.toGeometry, ?_⟩
          · simp only [List.head?_cons, Memory.releaseLoop, hnext]
            exact hrun
          · intro g hg hexp
            rcases List.mem_cons.mp hg with rfl | hg'
            · exact fun hmem ↦ hgone₁ hexp (hsweep'.used _ hmem)
            · have hgf : g ≠ f := by
                rw [hlist, List.nodup_append, List.nodup_cons] at hnodup
                exact fun heq ↦ hnodup.2.1.1 (heq ▸ hg')
              have hgu := hkeep₁ g hgf (hinv.inUse_of_pool (hmem g hg))
              have hfrags := hsweep₁.frags g hgu
              have hexp₁ : Expired time (Memory.releaseWhole time s f) g := by
                have hblock := hsweep₁.blocks _ hgu.1
                rw [hfrags] at hblock
                rw [Expired, Allocator.size, hfrags, hblock]
                exact hexp
              rw [← hfrags]
              exact hgone' g hg' hexp₁

/-- A whole pass keeps the invariant and releases exactly the blocks that consist of one fragment
whose deferral is over. -/
theorem Inv.coalescePass (hinv : Inv now held s) (time : ℤ) :
    ∃ s', coalescePass time s = some s' ∧ Inv now held s' ∧ Sweeps time s s' ∧
      ∀ b ∈ s.blockUsedList, ∀ f, (s.blocks b).fragmentList = [f] →
        (s.frags f).pool = some .defer → (s.frags f).timestamp ≤ time → b ∉ s'.blockUsedList := by
  have hlist := (List.nil_append (inorder (s.pools .defer).addrTree)).symm
  have hlen := length_inorder (s.pools .defer).addrTree
  obtain ⟨s', hrun, hinv', hsweep, hgone⟩ := hinv.releaseLoop time hlist hlen.le
  refine ⟨s', ?_, hinv', hsweep, ?_⟩
  · simp only [Memory.coalescePass, least_eq_head?, hinv.coalesceLoop_eq hlist hlen.le,
      Option.bind_eq_bind, Option.bind_some]
    exact hrun
  · intro b hb f hsingle hpool htime
    have hf : f ∈ (s.blocks b).fragmentList := by simp [hsingle]
    have hblock := hinv.own_block b hb f hf
    have htile := hinv.tiles b hb
    rw [hsingle] at htile
    have hexp : Expired time s f := by
      refine ⟨htime, ?_⟩
      rw [hblock]
      exact (htile.size_eq (hinv.size_pos b hb)).2
    rw [← hblock]
    exact hgone f (((hinv.index .defer).addr_mem f).mpr hpool) hexp

/-- What clients have is not touched by a pass. -/
theorem Sweeps.handed_eq (hsweep : Sweeps time s s') (hinv' : Inv now held s') :
    handed s' = handed s := by
  rw [handed, handed, hsweep.alloc]
  refine List.map_congr_left fun f hf ↦ ?_
  have hpool : (s'.frags f).pool = some .alloc :=
    ((hinv'.index .alloc).addr_mem f).mp (by rw [hsweep.alloc]; exact hf)
  have hframe := hsweep.frags f (hinv'.inUse_of_pool hpool)
  simp only [extent, Allocator.start, Allocator.size, hframe]

/-- A block that is released meets nothing that clients have. -/
theorem Sweeps.released_apart (hsweep : Sweeps time s s') (hinv : Inv now held s) {b : ℕ}
    (hb : b ∈ s.blockUsedList) (hb' : b ∉ s'.blockUsedList) {x : ℤ × ℤ} (hx : x ∈ handed s) :
    Apart x.1 x.2 (s.blocks b).start (s.blocks b).size := by
  obtain ⟨f, hlist, hpool, -⟩ := hsweep.gone b hb hb'
  obtain ⟨g, hg, rfl⟩ := hinv.mem_handed.mp hx
  have hgu := hinv.inUse_of_pool hg
  have hne : (s.frags g).block ≠ b := by
    intro heq
    have hgl := hgu.2
    rw [heq, hlist, List.mem_singleton] at hgl
    rw [hgl, hpool] at hg
    simp at hg
  have hin := hinv.inside hgu
  exact (hinv.apart _ hgu.1 b hb hne).mono hin.1 hin.2 le_rfl le_rfl

end HavokMud.Memory
