import HavokMud.Memory.ThreadSteps

/-!
# What threads do to each other

Every step that meets the condition keeps the invariant, whatever thread takes it and whatever the
others are about to do; so do all interleavings.  Nothing in the code enforces the condition, and
two threads whose searches return the same fragment end up with the same memory.
-/

namespace HavokMud.Memory

open BinaryTree BTree SearchTree HavokMud.Interval Records

variable {pl : Platform} {place : Owner → Option (ℤ × ℤ)} {w : World} {t f : ℕ} {input : ℤ}

/-! ## `memrealloc` -/

theorem WorldInv.compareSame (h : WorldInv pl w place) {f size : ℕ} {ptr : ℤ}
    (hpc : w.pc t = .compareSame f ptr size) : Advances pl w t input := by
  have hok := h.ok t
  rw [hpc] at hok
  rw [Advances, World.advance, hpc, World.stepFrom]
  split_ifs
  · exact ⟨_, place, rfl, h.rest hpc rfl hok.2.1⟩
  · exact ⟨_, place, rfl, h.goto hpc rfl rfl rfl hok⟩

theorem WorldInv.compareMore (h : WorldInv pl w place) {f size : ℕ} {ptr : ℤ}
    (hpc : w.pc t = .compareMore f ptr size) : Advances pl w t input := by
  have hok := h.ok t
  rw [hpc] at hok
  obtain ⟨hwanted, hpool, hstart⟩ := hok
  have hplace := h.placed f (by simp [hpool])
  have hin := h.inside hplace
  have hmine : f ∈ (w.pc t).fragments := by
    rw [hpc]
    exact List.mem_cons_self
  have hmod : w.s.size f % 2 ^ 64 = w.s.size f := Int.emod_eq_of_lt (by omega) (by omega)
  rw [extent, hstart] at hplace
  rw [Advances, World.advance, hpc, World.stepFrom, hmod]
  split_ifs with hlt
  · refine ⟨_, place, rfl, ?_⟩
    have hforget := h.forget ptr
    have hmoved : WorldInv pl { w.goto t (.checkSize f size (.shrink ptr)) with
        live := w.live.filter (·.1 ≠ ptr) } place := by
      refine hforget.move hpc (List.Sublist.refl _) (fun g hg _ _ _ ↦ Or.inl hg)
        (fun p n hr x hx heq ↦ ?_) h.ledger h.index (fun g _ ↦ ⟨rfl, rfl⟩) (fun _ _ ↦ rfl)
        (fun g _ hg ↦ h.placed g hg) (fun g hg hg' ↦ absurd hg hg') (fun _ _ _ _ hcov ↦ hcov) rfl
        h.blockRecords ⟨hwanted, hstart, hpool, hlt.le⟩
      obtain ⟨rfl, -⟩ := Prod.mk.inj (Option.some.inj hr)
      have hne := (List.mem_filter.mp hx).2
      simp [heq] at hne
    refine hmoved.remember (f := f) ⟨⟨w.s.size f, hplace, hlt.le⟩, fun t' ht' ↦ ?_, fun _ ↦ hpool⟩
      (fun y hy ↦ by simpa using (List.mem_filter.mp hy).2) (fun t' p n ht' heq ↦ ?_)
    · simp only [World.goto, Function.update_apply] at ht' ⊢
      split_ifs at ht' ⊢ with hself
      · exact List.mem_cons_self
      · exact absurd (h.exclusive t' t f ht' hmine) hself
    · simp only [World.goto, Function.update_apply] at ht'
      split_ifs at ht' with hself
      · obtain ⟨-, rfl⟩ := Prod.mk.inj (Option.some.inj ht')
        exact le_rfl
      · obtain ⟨g, hg, m, hm⟩ := h.shrinking ht'
        rw [← heq] at hm
        obtain rfl := h.eq_of_start hplace hm
        exact absurd (h.exclusive t' t g hg hmine) hself
  · exact ⟨_, place, rfl, h.goto hpc rfl rfl rfl ⟨hwanted, ⟨hpool, hstart⟩, by simp⟩⟩

/-! ## `memfree` -/

/-- After clients have given up what starts where the fragment does, nothing live is in it. -/
theorem WorldInv.not_settled (h : WorldInv pl w place) (hpool : (w.s.frags f).pool = some .alloc)
    {pc : ℕ → PC} {x : ℤ × ℤ} (hx : x ∈ w.live.filter (·.1 ≠ w.s.start f)) :
    ¬ Settled w.s pc place f x := by
  rintro ⟨⟨n, hn, -⟩, -, -⟩
  have hplace := h.placed f (by simp [hpool])
  have heq : w.s.start f = x.1 := congrArg Prod.fst (Option.some.inj (hplace.symm.trans hn))
  have hne := (List.mem_filter.mp hx).2
  simp [heq] at hne

theorem WorldInv.freeFind (h : WorldInv pl w place) {old : ℕ} {ptr : ℤ}
    (hpc : w.pc t = .freeFind ptr old) : Advances pl w t input := by
  have hok := h.ok t
  rw [hpc] at hok
  obtain ⟨hpool, rfl⟩ := hok
  have hin := h.inside (h.placed old (by simp [hpool]))
  have hfind : memoryFragmentFindByAddr w.s .alloc (w.s.start old) = some old :=
    ((h.index .alloc).findByAddr_iff (h.ordered_of_pool · .alloc) hin.1 (by omega)).mpr ⟨hpool, rfl⟩
  refine ⟨{ w.goto t (.freeRemove old) with live := w.live.filter (·.1 ≠ w.s.start old) }, place,
    ?_,
    ?_⟩
  · rw [World.advance, hpc, World.stepFrom, World.startFree, hfind]
  have hforget := h.forget (w.s.start old)
  refine hforget.move hpc (List.Sublist.refl _) (fun g hg x hx hset ↦ ?_)
    (fun p n hr ↦ by cases hr) h.ledger h.index (fun g _ ↦ ⟨rfl, rfl⟩) (fun _ _ ↦ rfl)
    (fun g _ hg ↦ h.placed g hg) (fun g hg hg' ↦ absurd hg hg') (fun _ _ _ _ hcov ↦ hcov) rfl
    h.blockRecords hpool
  obtain rfl := List.mem_singleton.mp hg
  exact absurd hset (h.not_settled hpool hx)

theorem WorldInv.freeRemove (h : WorldInv pl w place) {f : ℕ}
    (hpc : w.pc t = .freeRemove f) : Advances pl w t input := by
  have hok := h.ok t
  rw [hpc] at hok
  have hpool : (w.s.frags f).pool = some .alloc := hok
  obtain ⟨trees, hremove, hindex⟩ := indexes_remove (s := w.s.addBytes (-(w.s.size f)))
    (indexes_congr h.index rfl fun g ↦ Or.inl rfl) (fun g pool hg ↦
      have hord := h.ordered_of_pool g pool hg
      ⟨hord.size_nonneg, hord.size_lt, hord.start_nonneg, hord.start_lt⟩) hpool
  have hne : ∀ g, g ≠ f → (repool (w.s.addBytes (-(w.s.size f))) .alloc trees f none).frags g =
      w.s.frags g := fun g hg ↦ frags_repool_of_ne hg
  refine ⟨w.edit t (repool (w.s.addBytes (-(w.s.size f))) .alloc trees f none)
    (.freeStamp f), place,
    ?_, ?_⟩
  · rw [World.advance, hpc, World.stepFrom, ← hremove]
  refine h.stay hpc (by rfl) (by rfl) (by rfl) hindex
    (fun g hg ↦ hne g fun heq ↦ hg (heq ▸ List.mem_cons_self)) (fun g _ hg ↦ ?_) rfl h.blockRecords
    ⟨by simp, ?_⟩
  · have hgf : g ≠ f := by
      rintro rfl
      simp at hg
    rw [hne g hgf] at hg
    simpa [extent] using h.placed g hg
  · have hplace := h.placed f (by simp [hpool])
    simpa [extent] using hplace

theorem WorldInv.freeStamp (h : WorldInv pl w place) {f : ℕ}
    (hpc : w.pc t = .freeStamp f) : Advances pl w t input := by
  have hok := h.ok t
  rw [hpc] at hok
  have hheld : Held w.s place f := hok
  refine ⟨w.edit t (w.s.setFrag f { w.s.frags f with timestamp := input + timeDefer }) (.freeAdd f),
    place, ?_, ?_⟩
  · rw [World.advance, hpc, World.stepFrom]
  exact h.write hpc (by rfl) (by rfl) (by rfl) List.mem_cons_self hheld.1 hheld.1
    ⟨by simp [hheld.1], by simpa [extent, Allocator.start, Allocator.size] using hheld.2⟩

theorem WorldInv.freeAdd (h : WorldInv pl w place) {f : ℕ}
    (hpc : w.pc t = .freeAdd f) : Advances pl w t input := by
  have hok := h.ok t
  rw [hpc] at hok
  have hheld : Held w.s place f := hok
  obtain ⟨trees, hadd, hindex⟩ := h.add_held hheld .defer
  have hne : ∀ g, g ≠ f → (repool w.s .defer trees f (some .defer)).frags g = w.s.frags g :=
    fun g hg ↦ frags_repool_of_ne hg
  refine ⟨w.edit t (repool w.s .defer trees f (some .defer)) .idle, place, ?_, ?_⟩
  · rw [World.advance, hpc, World.stepFrom, hadd]
    rfl
  refine h.move hpc (List.nil_sublist _) (fun g hg ↦ absurd hg List.not_mem_nil)
    (fun p n hr ↦ by cases hr) h.ledger hindex
    (fun g hg ↦ ⟨hne g fun heq ↦ hg (heq ▸ List.mem_cons_self), rfl⟩) (fun _ _ ↦ rfl)
    (fun g _ hg' ↦ ?_) (fun g hg _ ↦ ?_) (fun _ _ _ _ hcov ↦ hcov) rfl h.blockRecords trivial
  · by_cases hgf : g = f
    · simpa [hgf, extent] using hheld.2
    · rw [hne g hgf] at hg'
      simpa [extent] using h.placed g hg'
  · rw [List.mem_singleton.mp hg]
    simp

/-! ## Whole runs -/

/-- Every step a thread can be about to take keeps the invariant. -/
theorem WorldInv.advance (h : WorldInv pl w place) (hpc : w.pc t ≠ .idle)
    (hguard : Unshared w t (.advance input)) (hsane : w.Sane pl t (.advance input)) :
    Advances pl w t input := by
  cases heq : w.pc t with
  | idle => exact absurd heq hpc
  | select pool size job => exact h.select heq hguard
  | malloc size job => exact h.malloc heq hsane
  | getBlock blk size job => exact h.getBlock heq
  | initBlock blk b stage size job => exact h.initBlock heq
  | getFragment blk b size job => exact h.getFragment heq
  | initFragment blk b f stage size job => exact h.initFragment heq
  | linkFragment b f size job => exact h.linkFragment heq
  | checkSize f size origin => exact h.checkSize heq
  | checkPool f size origin => exact h.checkPool heq
  | loadPool f size origin => exact h.loadPool heq
  | remove f pool size origin => exact h.remove heq
  | checkWhole f size origin => exact h.checkWhole heq
  | getRemainder f size origin => exact h.getRemainder heq
  | initRemainder f r stage size origin => exact h.initRemainder heq
  | linkRemainder f r size origin => exact h.linkRemainder heq
  | cutEnd f r size origin => exact h.cutEnd heq
  | cutSize f r size origin => exact h.cutSize heq
  | addRemainder f r size origin => exact h.addRemainder heq
  | addFragment f size origin => exact h.addFragment heq
  | finish f size origin => exact h.finish heq
  | compareSame f ptr size => exact h.compareSame heq
  | compareMore f ptr size => exact h.compareMore heq
  | freeFind ptr old => exact h.freeFind heq
  | freeRemove f => exact h.freeRemove heq
  | freeStamp f => exact h.freeStamp heq
  | freeAdd f => exact h.freeAdd heq

theorem WorldInv.callMemalloc (h : WorldInv pl w place) (hpc : w.pc t = .idle) {size : ℕ}
    (hfits : Fits pl size) : WorldInv pl (w.callMemalloc t size) place := by
  rw [World.callMemalloc]
  split_ifs with hzero
  · exact h
  · exact h.goto hpc rfl rfl rfl ⟨⟨Nat.pos_of_ne_zero hzero, hfits⟩, trivial, by simp⟩

/-- A thread with nothing in hand takes hold of an allocation. -/
theorem WorldInv.pick (h : WorldInv pl w place) (hpc : w.pc t = .idle) {pc : PC}
    (hfrags : pc.fragments = [f]) (hpool : (w.s.frags f).pool = some .alloc)
    (hothers : ∀ t', t' ≠ t → f ∉ (w.pc t').fragments)
    (htoken : ∀ x ∈ w.live, Settled w.s w.pc place f x → f ∈ pc.kept) (hshrinks : pc.shrinks = none)
    (hok : pc.Ok pl w.s place t) : WorldInv pl (w.goto t pc) place := by
  refine h.acquire hpc (fun g ↦ by rw [hfrags]; exact List.mem_cons) (by simp [hfrags]) hothers
    (fun g hg ↦ absurd hg List.not_mem_nil) htoken (by rw [hshrinks]; rfl) rfl rfl
    (h.records.congr fun g ↦ ⟨?_, Or.inr⟩) h.blockRecords hok
  rintro (rfl | hg)
  · exact Or.inl (by simp [hpool])
  · exact hg

theorem WorldInv.startFree (h : WorldInv pl w place) (hpc : w.pc t = .idle) {p : ℤ}
    (hnonneg : 0 ≤ p)
    (hlt : p < 2 ^ 64) (hothers : ∀ f, memoryFragmentFindByAddr w.s .alloc p = some f →
      ∀ t', t' ≠ t → f ∉ (w.pc t').fragments) : WorldInv pl (w.startFree t p) place := by
  rw [World.startFree]
  split
  · exact h.goto hpc rfl rfl rfl trivial
  · rename_i f hfind
    obtain ⟨hpool, rfl⟩ := h.findByAddr hnonneg hlt hfind
    exact (h.forget (w.s.start f)).pick hpc rfl hpool (hothers f hfind)
      (fun x hx hset ↦ absurd hset (h.not_settled hpool hx)) rfl hpool

/-- A step that meets the condition. -/
theorem WorldInv.step (h : WorldInv pl w place) {event : Event} {w' : World}
    (hguard : Unshared w t event) (hsane : w.Sane pl t event)
    (hstep : w.step pl t event = some w') : ∃ place', WorldInv pl w' place' := by
  cases event with
  | advance input =>
      have hidle : w.pc t ≠ .idle := by
        intro hpc
        rw [World.step, World.advance, hpc] at hstep
        cases hstep
      obtain ⟨w₁, place₁, hadvance, hinv⟩ := h.advance hidle hguard hsane
      obtain rfl : w₁ = w' := Option.some.inj (hadvance.symm.trans hstep)
      exact ⟨place₁, hinv⟩
  | memalloc size =>
      rw [World.step] at hstep
      split at hstep
      · rename_i hpc
        obtain rfl := Option.some.inj hstep
        exact ⟨place, h.callMemalloc hpc hsane⟩
      · cases hstep
  | memfree p =>
      rw [World.step] at hstep
      split at hstep
      · rename_i hpc
        obtain rfl := Option.some.inj hstep
        exact ⟨place, h.startFree hpc hsane.1 hsane.2 hguard⟩
      · cases hstep
  | memrealloc ptr size =>
      rw [World.step] at hstep
      split at hstep
      · rename_i hpc
        split_ifs at hstep with hnull hzero
        · obtain rfl := Option.some.inj hstep
          exact ⟨place, h.callMemalloc hpc hsane.2.2⟩
        · obtain rfl := Option.some.inj hstep
          exact ⟨place, h.startFree hpc hsane.1 hsane.2.1 hguard⟩
        · rw [Option.bind_eq_bind, Option.bind_eq_some_iff] at hstep
          obtain ⟨f, hfind, hstep⟩ := hstep
          obtain rfl := Option.some.inj hstep
          obtain ⟨hpool, rfl⟩ := h.findByAddr hsane.1 hsane.2.1 hfind
          exact ⟨place, h.pick hpc rfl hpool (hguard f hfind) (fun _ _ _ ↦ List.mem_cons_self) rfl
            ⟨⟨Nat.pos_of_ne_zero hzero, hsane.2.2⟩, hpool, rfl⟩⟩
      · cases hstep

theorem worldInv_initial (pl : Platform) : WorldInv pl World.initial fun _ ↦ none where
  ledger := Ledger.empty
  regions := by simp [World.initial]
  index := (inv_meminit 0).index
  placed f hf := absurd rfl hf
  records := ⟨List.nodup_nil, by simp [World.initial, meminit], by simp [World.initial, meminit],
    by simp [World.initial, meminit, PC.fragments]⟩
  blockRecords := (inv_meminit 0).block_records
  exclusive _ _ f hf := absurd hf List.not_mem_nil
  nodup _ := List.nodup_nil
  ok _ := trivial
  settled := by simp [World.initial]
  distinct := List.nodup_nil
  bounds := by simp [World.initial]

theorem ThreadRun.inv (hrun : ThreadRun pl Unshared w) : ∃ place, WorldInv pl w place := by
  induction hrun with
  | start => exact ⟨_, worldInv_initial pl⟩
  | step hrun hguard hsane hstep ih =>
      obtain ⟨place, hinv⟩ := ih
      exact hinv.step hguard hsane hstep

theorem WorldInv.live_apart (h : WorldInv pl w place) :
    w.live.Pairwise fun x y ↦ Apart x.1 x.2 y.1 y.2 := by
  have hstarts : w.live.Pairwise fun x y ↦ x.1 ≠ y.1 := List.pairwise_map.mp h.distinct
  refine hstarts.imp_of_mem ?_
  intro x y hx hy hne
  obtain ⟨f, ⟨n, hf, hle⟩, -⟩ := h.settled x hx
  obtain ⟨g, ⟨m, hg, hle'⟩, -⟩ := h.settled y hy
  have hfg : Owner.fragment f ≠ .fragment g := by
    intro heq
    rw [heq, hg, Option.some.injEq, Prod.mk.injEq] at hf
    exact hne hf.1.symm
  exact (h.ledger.apart _ _ _ _ hfg hf hg).mono le_rfl (by simp only; omega) le_rfl
    (by simp only; omega)

/-- In every interleaving in which no search returns a fragment another thread is not done with,
live ranges do not meet, no fragment is in two pools, and no thread is stuck: whichever takes its
next step, with the condition met, can. -/
theorem threadRun_safe (hrun : ThreadRun pl Unshared w) :
    (w.live.Pairwise fun x y ↦ Apart x.1 x.2 y.1 y.2) ∧
      (∀ f pool pool', f ∈ addrIndex w.s pool ∨ f ∈ sizeIndex w.s pool →
        f ∈ addrIndex w.s pool' ∨ f ∈ sizeIndex w.s pool' → pool = pool') ∧
      ∀ t input, w.pc t ≠ .idle → Unshared w t (.advance input) → w.Sane pl t (.advance input) →
        ∃ w', w.advance pl t input = some w' := by
  obtain ⟨place, hinv⟩ := hrun.inv
  refine ⟨hinv.live_apart, fun f pool pool' hf hf' ↦ ?_, fun t input hidle hguard hsane ↦ ?_⟩
  · have hnames : ∀ pool, f ∈ addrIndex w.s pool ∨ f ∈ sizeIndex w.s pool →
        (w.s.frags f).pool = some pool := fun pool hmem ↦
      hmem.elim ((hinv.index pool).addr_mem f).mp (hinv.index pool).mem_sizeIndex.mp
    exact Option.some.inj ((hnames pool hf).symm.trans (hnames pool' hf'))
  · obtain ⟨w', -, hadvance, -⟩ := hinv.advance hidle hguard hsane
    exact ⟨w', hadvance⟩

/-- Steps of threads in the given order. -/
def World.runEvents (pl : Platform) : List (ℕ × Event) → World → Option World
  | [], w => some w
  | (t, event) :: events, w =>
      if w.Sane pl t event then (w.step pl t event).bind (runEvents pl events) else none

theorem ThreadRun.runEvents (hrun : ThreadRun pl (fun _ _ _ ↦ True) w) {events : List (ℕ × Event)}
    {w' : World} (hevents : World.runEvents pl events w = some w') :
    ThreadRun pl (fun _ _ _ ↦ True) w' := by
  induction events generalizing w with
  | nil =>
      obtain rfl := Option.some.inj hevents
      exact hrun
  | cons head events ih =>
      rw [World.runEvents] at hevents
      split_ifs at hevents with hsane
      obtain ⟨w₁, hstep, hevents⟩ := Option.bind_eq_some_iff.mp hevents
      exact ih (hrun.step trivial hsane hstep) hevents

/-- Thread 0 gets 100 bytes of a new block.  Then the searches of threads 0 and 1 for 50 bytes both
return what is left of the block; thread 0 takes it and returns, and thread 1 goes on. -/
def raceEvents : List (ℕ × Event) :=
  (0, .memalloc 100) :: List.replicate 35 (0, .advance 4096) ++
    [(0, .memalloc 50), (1, .memalloc 50), (0, .advance 0), (1, .advance 0)] ++
    List.replicate 19 (0, .advance 0) ++ List.replicate 7 (1, .advance 0)

/-- Both threads are handed the same 50 bytes. -/
theorem threadRun_race : ∃ w, ThreadRun lp64 (fun _ _ _ ↦ True) w ∧
    w.live = [(4196, 50), (4196, 50), (4096, 100)] ∧
    ¬ w.live.Pairwise fun x y ↦ Apart x.1 x.2 y.1 y.2 := by
  have hlive : (World.runEvents lp64 raceEvents World.initial).map World.live =
      some [(4196, 50), (4196, 50), (4096, 100)] := by decide +kernel
  obtain ⟨w, hrun, hlive⟩ := Option.map_eq_some_iff.mp hlive
  refine ⟨w, ThreadRun.start.runEvents hrun, hlive, ?_⟩
  rw [hlive]
  decide

/-- Two threads have entered `memalloc`. -/
def twoThreads : World :=
  (World.initial.goto 0 (.select .free 100 .memalloc)).goto 1 (.select .free 200 .memalloc)

/-- One of the two threads has searched the free pool in vain. -/
theorem threadRun_safe_two :
    let w := twoThreads.goto 0 (.select .defer 100 .memalloc)
    (w.live.Pairwise fun x y ↦ Apart x.1 x.2 y.1 y.2) ∧ ∃ w', w.advance lp64 0 0 = some w' := by
  intro w
  have hguard : ∀ {w : World} {t : ℕ} {event : Event}, w.lookup t event = none →
      Unshared w t event :=
    fun hnone f hf ↦ by rw [hnone] at hf; cases hf
  have hfound : twoThreads.lookup 0 (.advance 0) = none := by decide +kernel
  have hfound' : w.lookup 0 (.advance 0) = none := by decide +kernel
  have hstep : twoThreads.step lp64 0 (.advance 0) = some w := by
    change some (twoThreads.goto 0 (afterSearch .free 100 .memalloc
      (twoThreads.lookup 0 (.advance 0)))) = some w
    rw [hfound]
    rfl
  have hone : ThreadRun lp64 Unshared (World.initial.goto 0 (.select .free 100 .memalloc)) :=
    ThreadRun.start.step (hguard rfl) (by decide)
      (rfl : World.initial.step lp64 0 (.memalloc 100) = _)
  have htwo : ThreadRun lp64 Unshared twoThreads :=
    hone.step (hguard rfl) (by decide) (rfl : World.step lp64 _ 1 (.memalloc 200) = _)
  have hsafe := threadRun_safe (htwo.step (hguard hfound) (by decide) hstep)
  exact ⟨hsafe.1, hsafe.2.2 0 0 (by simp [w, World.goto]) (hguard hfound') (by decide)⟩

end HavokMud.Memory
