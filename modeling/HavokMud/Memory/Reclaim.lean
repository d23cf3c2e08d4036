import HavokMud.Memory.Runs

/-!
# What coalescing reclaims

A block none of whose fragments is in the hands of a client should be given back after enough
coalescing passes.  Since no two fragments are ever joined, that happens for the blocks of a single
fragment only: a block that was cut once stays cut and is never given back.
-/

namespace HavokMud.Memory

open BinaryTree BTree SearchTree HavokMud.Interval

/-- Passes at the given times, with no call in between. -/
def passes : List ℤ → State → Option State
  | [], s => some s
  | time :: times, s => do passes times (← coalesce s time)

/-- Each time lies more than `TIME_DEFER` seconds behind the one before. -/
def Spaced : ℤ → List ℤ → Prop
  | _, [] => True
  | time, next :: times => time + timeDefer < next ∧ Spaced next times

/-- The sizes of the blocks in use in `s` and no longer in `s'`. -/
def releasedSize (s s' : Allocator) : ℤ :=
  ((s.blockUsedList.filter (· ∉ s'.blockUsedList)).map fun b ↦ (s.blocks b).size).sum

/-- The passes make one fragment of the block, with its `end` where the block ends, and release the
block with it; `memAllocTrueBytes` drops by its size and those of the other blocks released in the
same pass. -/
def Reclaimed (s : State) (times : List ℤ) (b : ℕ) : Prop :=
  ∃ before time after s₁ s₂ f, times = before ++ time :: after ∧ passes before s = some s₁ ∧
    coalesce s₁ time = some s₂ ∧ b ∈ s₁.allocator.blockUsedList ∧
    (s₁.allocator.blocks b).fragmentList = [f] ∧
    (s₁.allocator.frags f).endAddr = s₁.allocator.start f + s₁.allocator.size f - 1 ∧
    b ∉ s₂.allocator.blockUsedList ∧
    s₂.allocator.memAllocTrueBytes % 2 ^ 64 =
      (s₁.allocator.memAllocTrueBytes - releasedSize s₁.allocator s₂.allocator) % 2 ^ 64

variable {pl : Platform} {now : ℤ} {s : State}

/-- The blocks of a pass are those released in it and those it leaves. -/
theorem Sweeps.totalSize_eq {time : ℤ} {a a' : Allocator} (hsweep : Sweeps time a a')
    (hgeo : Geometry a) (hgeo' : Geometry a') : totalSize a = totalSize a' + releasedSize a a' := by
  have hperm : a.blockUsedList.Perm
      (a'.blockUsedList ++ a.blockUsedList.filter (· ∉ a'.blockUsedList)) := by
    refine (List.perm_ext_iff_of_nodup hgeo.used_nodup ?_).mpr fun b ↦ ?_
    · refine List.nodup_append.mpr ⟨hgeo'.used_nodup, hgeo.used_nodup.filter _, ?_⟩
      rintro b hb c hc rfl
      exact (by simpa using (List.mem_filter.mp hc).2 : b ∉ a'.blockUsedList) hb
    · rw [List.mem_append, List.mem_filter]
      by_cases hb : b ∈ a'.blockUsedList
      · simp [hb, hsweep.used b hb]
      · simp [hb]
  have hsame : (a'.blockUsedList.map fun b ↦ (a.blocks b).size) =
      a'.blockUsedList.map fun b ↦ (a'.blocks b).size :=
    List.map_congr_left fun b hb ↦ by rw [hsweep.blocks b hb]
  calc
    totalSize a = ((a'.blockUsedList ++ a.blockUsedList.filter (· ∉ a'.blockUsedList)).map
        fun b ↦ (a.blocks b).size).sum := (hperm.map _).sum_eq
    _ = totalSize a' + releasedSize a a' := by
      rw [List.map_append, List.sum_append, hsame, totalSize, releasedSize]

/-- One pass over a state of a run. -/
theorem Inv.coalesce_state (hinv : Inv now [] s.allocator) (time : ℤ) :
    ∃ s', coalesce s time = some s' ∧ Inv now [] s'.allocator ∧
      Sweeps time s.allocator s'.allocator ∧
      ∀ b ∈ s.allocator.blockUsedList, ∀ f, (s.allocator.blocks b).fragmentList = [f] →
        (s.allocator.frags f).pool = some .defer → (s.allocator.frags f).timestamp ≤ time →
        b ∉ s'.allocator.blockUsedList := by
  obtain ⟨a, hpass, hinv', hsweep, hgone⟩ := hinv.coalescePass time
  exact ⟨{ s with allocator := a }, by simp [coalesce, hpass], hinv', hsweep, hgone⟩

/-- A block that stays is not touched by passes. -/
theorem Inv.passes_kept (hinv : Inv now [] s.allocator) {b : ℕ}
    (hb : b ∈ s.allocator.blockUsedList)
    (hcut : (s.allocator.blocks b).fragmentList.length ≠ 1) {times : List ℤ} {s' : State}
    (hrun : passes times s = some s') : Inv now [] s'.allocator ∧
      b ∈ s'.allocator.blockUsedList ∧ s'.allocator.blocks b = s.allocator.blocks b := by
  induction times generalizing s with
  | nil =>
      obtain rfl : s = s' := by simpa [passes] using hrun
      exact ⟨hinv, hb, rfl⟩
  | cons time times ih =>
      obtain ⟨s₁, hpass, hinv₁, hsweep, -⟩ := hinv.coalesce_state time
      have hb₁ : b ∈ s₁.allocator.blockUsedList := by
        by_contra hgone
        obtain ⟨f, hlist, -⟩ := hsweep.gone b hb hgone
        exact hcut (by simp [hlist])
      have hsame := hsweep.blocks b hb₁
      obtain ⟨hinv', hb', hblock⟩ := ih hinv₁ hb₁ (by rw [hsame]; exact hcut)
        (by simpa [passes, hpass] using hrun)
      exact ⟨hinv', hb', hblock.trans hsame⟩

/-- Once the deferral of the only fragment of a block is over, the next pass reclaims the block. -/
theorem Inv.reclaimed_of_expired (hinv : Inv now [] s.allocator) {b f : ℕ}
    (hb : b ∈ s.allocator.blockUsedList) (hlist : (s.allocator.blocks b).fragmentList = [f])
    (hpool : (s.allocator.frags f).pool = some .defer) {time : ℤ} {times before : List ℤ}
    {s₀ : State} (htime : (s.allocator.frags f).timestamp ≤ time)
    (hbefore : passes before s₀ = some s) : Reclaimed s₀ (before ++ time :: times) b := by
  obtain ⟨s₂, hpass, hinv₂, hsweep, hgone⟩ := hinv.coalesce_state time
  have hf : f ∈ (s.allocator.blocks b).fragmentList := by simp [hlist]
  have htile := hinv.tiles b hb
  rw [hlist] at htile
  have hend := hinv.whole b hb f hf (htile.size_eq (hinv.size_pos b hb)).2
  refine ⟨before, time, times, s, s₂, f, rfl, hbefore, hpass, hb, hlist, by omega,
    hgone b hb f hlist hpool htime, ?_⟩
  rw [hsweep.trueBytes, hsweep.totalSize_eq hinv.toGeometry hinv₂.toGeometry]
  congr 1
  omega

/-- In every state a run can reach, `k + 1` passes reclaim a block of `k` fragments, all of them
free or deferred and one at least deferred, exactly when the block was never cut. -/
theorem reclaimed_iff (hreach : Reachable pl now s) {b : ℕ}
    (hb : b ∈ s.allocator.blockUsedList)
    (_hidle : ∀ f ∈ (s.allocator.blocks b).fragmentList,
      (s.allocator.frags f).pool = some .free ∨ (s.allocator.frags f).pool = some .defer)
    (hdefer : ∃ f ∈ (s.allocator.blocks b).fragmentList, (s.allocator.frags f).pool = some .defer)
    {time : ℤ} {times : List ℤ} (hlen : times.length = (s.allocator.blocks b).fragmentList.length)
    (hnow : now ≤ time) (hspaced : Spaced time times) :
    Reclaimed s (time :: times) b ↔ (s.allocator.blocks b).fragmentList.length = 1 := by
  have hinv := hreach.inv
  constructor
  · rintro ⟨before, later, after, s₁, s₂, f, -, hbefore, -, -, hlist, -⟩
    by_contra hcut
    obtain ⟨-, -, hsame⟩ := hinv.passes_kept hb hcut hbefore
    rw [← hsame, hlist] at hcut
    simp at hcut
  · intro hone
    obtain ⟨f, hlist⟩ := List.length_eq_one_iff.mp hone
    have hpool : (s.allocator.frags f).pool = some .defer := by
      obtain ⟨g, hg, hpool⟩ := hdefer
      rw [hlist, List.mem_singleton] at hg
      exact hg ▸ hpool
    by_cases htime : (s.allocator.frags f).timestamp ≤ time
    · exact hinv.reclaimed_of_expired hb hlist hpool htime (rfl : passes [] s = some s)
    · -- the first pass comes too early and leaves the block alone; the second does not
      obtain ⟨second, rfl⟩ : ∃ second, times = [second] := by
        rw [hone] at hlen
        exact List.length_eq_one_iff.mp hlen
      obtain ⟨s₁, hpass, hinv₁, hsweep, -⟩ := hinv.coalesce_state time
      have hb₁ : b ∈ s₁.allocator.blockUsedList := by
        by_contra hgone
        obtain ⟨g, hlist', -, hstamp⟩ := hsweep.gone b hb hgone
        obtain rfl : f = g := by simpa [hlist] using hlist'
        exact htime hstamp
      have hlist₁ : (s₁.allocator.blocks b).fragmentList = [f] := by
        rw [hsweep.blocks b hb₁, hlist]
      have hframe := hsweep.frags f (hinv₁.inUse_of_mem hb₁ (by simp [hlist₁]))
      have hstamp := hinv.stamped f hpool
      have hgap : time + timeDefer < second := hspaced.1
      exact hinv₁.reclaimed_of_expired hb₁ hlist₁ (by rw [hframe]; exact hpool)
        (by rw [hframe]; omega) (by simp [passes, hpass] : passes [time] s = some s₁)

/-- A client gets `size` bytes from the block `malloc` returns at `4096`, and frees them at once. -/
def usedOnce (size : ℕ) : Option State := do
  let (s, p) ← memalloc lp64 initial size 4096
  memfree lp64 s 0 p

theorem reachable_usedOnce {size : ℕ} (hfits : Fits lp64 size)
    (hrun : usedOnce size = some s) : Reachable lp64 0 s := by
  simp only [usedOnce, Option.bind_eq_bind, Option.bind_eq_some_iff, Prod.exists] at hrun
  obtain ⟨s₁, p, halloc, hfree⟩ := hrun
  have hfresh : MallocFresh lp64 initial.allocator size 4096 := by
    intro _ _
    have hlt : roundUp lp64 size < 2 ^ 31 := hfits
    rw [hfits.pageRequest_eq]
    exact ⟨by norm_num, by omega, by simp [initial, meminit]⟩
  have hsane : (Op.memalloc size 4096).Sane lp64 initial := fun _ ↦ ⟨hfits, hfresh⟩
  have hreach₁ : Reachable lp64 0 s₁ := (Reachable.start 0).step le_rfl hsane halloc
  have hstep : (Op.memfree p).step lp64 0 s₁ = some (s, 0) := by simp [Op.step, hfree]
  have hsane₁ : (Op.memfree p).Sane lp64 s₁ := trivial
  exact hreach₁.step le_rfl hsane₁ hstep

/-- The run of `reclaimed_iff` with a block of one fragment. -/
theorem reclaimed_page : ∃ s, usedOnce 4096 = some s ∧ Reclaimed s [0, 11] 0 := by
  obtain ⟨s, hs⟩ : ∃ s, usedOnce 4096 = some s := Option.isSome_iff_exists.mp (by decide +kernel)
  have hfacts : (usedOnce 4096).any (fun s ↦ s.allocator.blockUsedList = [0] ∧
      (s.allocator.blocks 0).fragmentList = [0] ∧
      (s.allocator.frags 0).pool = some .defer) = true := by decide +kernel
  simp only [hs, Option.any_some, decide_eq_true_eq] at hfacts
  obtain ⟨hused, hlist, hpool⟩ := hfacts
  have hspaced : Spaced 0 [11] := ⟨by decide, trivial⟩
  refine ⟨s, hs, (reclaimed_iff (reachable_usedOnce (by decide) hs) (by simp [hused])
    ?_ ?_ (by simp [hlist]) le_rfl hspaced).mpr (by simp [hlist])⟩
  · simp [hlist, hpool]
  · simp [hlist, hpool]

/-- Of a block that was cut in two, three passes reclaim nothing. -/
theorem not_reclaimed_cut : ∃ s, Reachable lp64 0 s ∧ 0 ∈ s.allocator.blockUsedList ∧
    (s.allocator.blocks 0).fragmentList = [0, 1] ∧ (s.allocator.frags 0).pool = some .defer ∧
    (s.allocator.frags 1).pool = some .free ∧ Spaced 0 [11, 22] ∧
    ¬ Reclaimed s [0, 11, 22] 0 := by
  obtain ⟨s, hs⟩ : ∃ s, usedOnce 100 = some s := Option.isSome_iff_exists.mp (by decide +kernel)
  have hfacts : (usedOnce 100).any (fun s ↦ s.allocator.blockUsedList = [0] ∧
      (s.allocator.blocks 0).fragmentList = [0, 1] ∧ (s.allocator.frags 0).pool = some .defer ∧
      (s.allocator.frags 1).pool = some .free) = true := by decide +kernel
  simp only [hs, Option.any_some, decide_eq_true_eq] at hfacts
  obtain ⟨hused, hlist, hdefer, hfree⟩ := hfacts
  have hreach := reachable_usedOnce (by decide) hs
  refine ⟨s, hreach, by simp [hused], hlist, hdefer, hfree, ⟨by decide, by decide, trivial⟩, ?_⟩
  rintro ⟨before, later, after, s₁, s₂, f, -, hbefore, -, -, hone, -⟩
  have hb : 0 ∈ s.allocator.blockUsedList := by simp [hused]
  obtain ⟨-, -, hsame⟩ := hreach.inv.passes_kept hb (by simp [hlist]) hbefore
  rw [hsame, hlist] at hone
  simp at hone

end HavokMud.Memory
