import HavokMud.Memory.ThreadInvariant

/-!
# The steps of `memalloc`

Every access of `memalloc` and `memoryFragmentSplit` to the state keeps the invariant, whatever the
other threads are about to do.
-/

namespace HavokMud.Memory

open BinaryTree BTree SearchTree HavokMud.Interval Records

variable {pl : Platform} {place : Owner → Option (ℤ × ℤ)} {w : World} {t f : ℕ} {input : ℤ}

/-- The next step of thread `t` can be taken and keeps the invariant. -/
def Advances (pl : Platform) (w : World) (t : ℕ) (input : ℤ) : Prop :=
  ∃ w' place', w.advance pl t input = some w' ∧ WorldInv pl w' place'

theorem Wanted.toInt_eq {size : ℕ} (h : Wanted pl size) : toInt size = size :=
  h.2.toInt_eq

theorem Wanted.pos {size : ℕ} (h : Wanted pl size) : (0 : ℤ) < size := by
  exact_mod_cast h.1

theorem Wanted.lt {size : ℕ} (h : Wanted pl size) : (size : ℤ) < 2 ^ 31 := by
  have hle := le_roundUp pl size
  have hlt : roundUp pl size < 2 ^ 31 := h.2
  omega

/-! ## Places -/

theorem WorldInv.inside (h : WorldInv pl w place) {o : Owner} {a n : ℤ}
    (ho : place o = some (a, n)) :
    0 < a ∧ 0 < n ∧ n < 2 ^ 31 ∧ a + n ≤ 2 ^ 63 := by
  obtain ⟨r, hr, hlo, hhi⟩ := h.ledger.inside o _ ho
  have hpos := h.ledger.pos o _ ho
  have hregion := h.regions r hr
  simp only at hlo hhi hpos
  omega

theorem WorldInv.ordered (h : WorldInv pl w place)
    (hf : place (.fragment f) = some (extent w.s f)) : Ordered w.s f := by
  have hin := h.inside hf
  exact ⟨by omega, by omega, by omega, by omega⟩

theorem WorldInv.ordered_of_pool (h : WorldInv pl w place) (g : ℕ) (pool : Pool)
    (hg : (w.s.frags g).pool = some pool) : Ordered w.s g :=
  h.ordered (h.placed g (by simp [hg]))

/-- The search by address finds what is there. -/
theorem WorldInv.findByAddr (h : WorldInv pl w place) {p : ℤ} (hnonneg : 0 ≤ p) (hlt : p < 2 ^ 64)
    (hfind : memoryFragmentFindByAddr w.s .alloc p = some f) :
    (w.s.frags f).pool = some .alloc ∧ w.s.start f = p := by
  unfold memoryFragmentFindByAddr at hfind
  split_ifs at hfind
  obtain ⟨hmem, hzero⟩ := find_some hfind
  have hf := ((h.index .alloc).addr_mem f).mp hmem
  have hord := h.ordered_of_pool f .alloc hf
  exact ⟨hf, (keyComparePointer_eq_zero hnonneg hlt hord.start_nonneg hord.start_lt hzero).symm⟩

/-- A held fragment can be put into any pool. -/
theorem WorldInv.add_held (h : WorldInv pl w place) (hheld : Held w.s place f) (pool : Pool) :
    ∃ trees, memoryFragmentAdd w.s pool f = some (repool w.s pool trees f (some pool)) ∧
      ∀ other, Indexes (repool w.s pool trees f (some pool)) other := by
  refine indexes_add h.index h.ordered_of_pool hheld.1 (h.ordered hheld.2) fun g hg heq ↦ ?_
  have hplace := h.placed g (by simp [hg])
  rw [extent, heq] at hplace
  have hgf : Owner.fragment g = .fragment f := h.ledger.eq_of_start_eq hplace hheld.2
  rw [Owner.fragment.injEq] at hgf
  simp [hgf, hheld.1] at hg

/-! ## `memalloc` -/

theorem WorldInv.select (h : WorldInv pl w place) {pool : Pool} {size : ℕ} {job : Job}
    (hpc : w.pc t = .select pool size job) (hguard : Unshared w t (.advance input)) :
    Advances pl w t input := by
  have hok := h.ok t
  rw [hpc] at hok
  obtain ⟨hwanted, hjob, hpool⟩ := hok
  have hfound : w.found pool size = memoryFragmentSelect w.s pool size := by
    rw [World.found, hwanted.toInt_eq, if_neg (not_le.mpr hwanted.pos)]
  cases hsel : w.found pool size with
  | none =>
      refine ⟨w.goto t (afterMiss size job pool), place, by
        rw [World.advance, hpc, World.stepFrom, hsel]
        rfl, ?_⟩
      cases pool with
      | free => exact h.goto hpc rfl rfl rfl ⟨hwanted, hjob, by simp⟩
      | defer => exact h.goto hpc rfl rfl rfl ⟨hwanted, hjob⟩
      | alloc => exact absurd rfl hpool
  | some f =>
      refine ⟨w.goto t (.checkSize f size (.pool pool job)), place, by
        rw [World.advance, hpc, World.stepFrom, hsel]
        rfl,
        ?_⟩
      obtain ⟨hf, hle⟩ := (h.index pool).select_spec (h.ordered_of_pool · pool) hwanted.pos.le
        hwanted.lt (hfound ▸ hsel)
      have hothers := hguard f (by simp [World.lookup, hpc, hsel])
      have hown : f ∉ job.fragments := by
        cases job with
        | memalloc => simp [Job.fragments]
        | grow ptr old =>
            intro hmem
            obtain rfl : f = old := by simpa [Job.fragments] using hmem
            rw [hjob.1, Option.some.injEq] at hf
            exact hpool hf.symm
      have hnodup : (f :: job.fragments).Nodup := by
        have hold := h.nodup t
        rw [hpc] at hold
        exact List.nodup_cons.mpr ⟨hown, hold⟩
      refine h.acquire hpc (fun g ↦ List.mem_cons) hnodup hothers (fun g hg ↦ hg)
        (fun x hx hset ↦ ?_) rfl rfl rfl ?_ h.blockRecords ⟨hwanted, hjob, hf, hle⟩
      · have halloc : (w.s.frags f).pool = some .alloc := by
          refine hset.handed fun t' ht' ↦ ?_
          by_cases heq : t' = t
          · rw [heq, hpc] at ht'
            exact hown ht'
          · exact hothers t' heq ht'
        rw [hf, Option.some.injEq] at halloc
        exact absurd halloc hpool
      · refine h.records.congr fun g ↦ ⟨?_, Or.inr⟩
        rintro (rfl | hg)
        · exact Or.inl (by simp [hf])
        · exact hg

theorem WorldInv.malloc (h : WorldInv pl w place) {size : ℕ} {job : Job}
    (hpc : w.pc t = .malloc size job) (hsane : w.Sane pl t (.advance input)) :
    Advances pl w t input := by
  have hok := h.ok t
  rw [hpc] at hok
  obtain ⟨hwanted, hjob⟩ := hok
  obtain ⟨hpos, hend, hfresh⟩ := hsane size (by rw [hpc]; rfl)
  have hle := le_roundUp pl size
  have hlt : roundUp pl size < 2 ^ 31 := hwanted.2
  have hsize := hwanted.pos
  rw [hwanted.2.pageRequest_eq] at hend hfresh
  have hgrant := h.grant hpos (by omega : (0 : ℤ) < roundUp pl size) (by omega) hend hfresh
    (t := t) (by rw [hpc]; exact ⟨hwanted, hjob⟩)
  refine ⟨{ w.edit t (w.s.countMalloc (roundUp pl size)) (.getBlock input size job) with
    regions := (input, (roundUp pl size : ℤ)) :: w.regions }, _, ?_,
      hgrant.silent hpc rfl rfl rfl rfl
    rfl rfl h.blockRecords ⟨hwanted, hjob, Function.update_self _ _ _⟩⟩
  rw [World.advance, hpc, World.stepFrom, hwanted.2.pageRequest_eq]

theorem WorldInv.getBlock (h : WorldInv pl w place) {blk : ℤ} {size : ℕ} {job : Job}
    (hpc : w.pc t = .getBlock blk size job) : Advances pl w t input := by
  have hok := h.ok t
  rw [hpc] at hok
  obtain ⟨s', b, hget, -, hfrags, -, hpools, -, hfree, -, hblocks⟩ :=
    memoryBlockGetNew_spec pl h.blockRecords
  refine ⟨w.edit t s' (.initBlock blk b 0 size job), place, ?_,
    h.silent hpc rfl rfl rfl hfrags hpools hfree hblocks hok⟩
  rw [World.advance, hpc, World.stepFrom, hget]
  rfl

theorem WorldInv.initBlock (h : WorldInv pl w place) {blk : ℤ} {b stage size : ℕ} {job : Job}
    (hpc : w.pc t = .initBlock blk b stage size job) : Advances pl w t input := by
  have hok := h.ok t
  rw [hpc] at hok
  rw [Advances, World.advance, hpc, World.stepFrom]
  split
  · exact ⟨_, place, rfl, h.silent hpc rfl rfl rfl rfl rfl rfl h.blockRecords hok⟩
  · exact ⟨_, place, rfl, h.goto hpc rfl rfl rfl hok⟩

/-! ## Records written field by field -/

theorem foldl_writes_some {α : Type*} {writes : List (α → α)} {stage : ℕ} {write : α → α}
    (hwrite : writes[stage]? = some write) (x : α) :
    (writes.drop stage).foldl (fun x write ↦ write x) x =
      (writes.drop (stage + 1)).foldl (fun x write ↦ write x) (write x) := by
  obtain ⟨hlt, rfl⟩ := List.getElem?_eq_some_iff.mp hwrite
  rw [List.drop_eq_getElem_cons hlt, List.foldl_cons]

theorem foldl_writes_none {α : Type*} {writes : List (α → α)} {stage : ℕ}
    (hwrite : writes[stage]? = none) (x : α) :
    (writes.drop stage).foldl (fun x write ↦ write x) x = x := by
  rw [List.drop_eq_nil_of_le (List.getElem?_eq_none_iff.mp hwrite), List.foldl_nil]

theorem foldl_fragmentWrites (target fragment : Fragment) :
    (fragmentWrites target).foldl (fun fragment write ↦ write fragment) fragment = target :=
  rfl

/-- A record that is written field by field stays out of all pools. -/
theorem pool_of_fragmentWrites {target fragment : Fragment} (htarget : target.pool = none)
    (hfragment : fragment.pool = none) {write : Fragment → Fragment}
    (hwrite : write ∈ fragmentWrites target) : (write fragment).pool = none := by
  simp only [fragmentWrites, List.mem_cons, List.not_mem_nil, or_false] at hwrite
  rcases hwrite with rfl | rfl | rfl | rfl | rfl | rfl
  all_goals first | exact hfragment | exact htarget

/-! ## New fragments -/

theorem WorldInv.getFragment (h : WorldInv pl w place) {blk : ℤ} {b size : ℕ} {job : Job}
    (hpc : w.pc t = .getFragment blk b size job) : Advances pl w t input := by
  have hok := h.ok t
  rw [hpc] at hok
  obtain ⟨hwanted, hjob, hplace⟩ := hok
  obtain ⟨s', f, hget, hfresh, hfrags, -, hpools, hused, hbfree, -, hrecords⟩ :=
    memoryFragmentGetNew_spec pl h.records
  rw [not_or, not_not, not_exists] at hfresh
  have hnodup := h.nodup t
  have hown := hfresh.2 t
  rw [hpc] at hnodup hown
  refine ⟨w.edit t s' (.initFragment blk b f 0 size job), place, ?_,
    h.acquire hpc (fun g ↦ List.mem_cons) (List.nodup_cons.mpr ⟨hown, hnodup⟩)
      (fun t' _ ↦ hfresh.2 t') (fun g hg ↦ hg) (fun x _ hset ↦ ?_) rfl hfrags hpools hrecords
      (by rw [hbfree, hused]; exact h.blockRecords)
      ⟨hwanted, hjob, hplace, hfresh.1, foldl_fragmentWrites _ _⟩⟩
  · rw [World.advance, hpc, World.stepFrom, hget]
    rfl
  · have halloc := hset.handed hfresh.2
    simp [hfresh.1] at halloc

theorem WorldInv.initFragment (h : WorldInv pl w place) {blk : ℤ} {b f stage size : ℕ} {job : Job}
    (hpc : w.pc t = .initFragment blk b f stage size job) : Advances pl w t input := by
  have hok := h.ok t
  rw [hpc] at hok
  obtain ⟨hwanted, hjob, hplace, hpool, hfold⟩ := hok
  have hnodup := h.nodup t
  rw [hpc] at hnodup
  have hown : f ∉ job.fragments := (List.nodup_cons.mp hnodup).1
  rw [Advances, World.advance, hpc, World.stepFrom, hwanted.2.pageRequest_eq]
  split
  · rename_i write hwrite
    rw [foldl_writes_some hwrite] at hfold
    have hout := pool_of_fragmentWrites
        (rfl : (wholeBlock b blk (roundUp pl size)).pool = none) hpool
      (List.mem_of_getElem? hwrite)
    refine ⟨w.edit t (w.s.setFrag f (write (w.s.frags f)))
      (.initFragment blk b f (stage + 1) size job),
      place, rfl, ?_⟩
    refine h.write hpc (by rfl) (by rfl) (by rfl) List.mem_cons_self hpool hout
      ⟨hwanted, hjob.congr fun g hg ↦ ?_, hplace, ?_, ?_⟩
    · have hgf : g ≠ f := fun heq ↦ hown (heq ▸ hg)
      simp [hgf]
    · simpa using hout
    · simpa using hfold
  · rename_i hwrite
    rw [foldl_writes_none hwrite] at hfold
    have hextent : extent w.s f = (blk, (roundUp pl size : ℤ)) := by
      rw [extent, Allocator.start, Allocator.size, hfold]
      rfl
    have hle := le_roundUp pl size
    have hother : ∀ g, g ≠ f → Function.update (Function.update place (.thread t) none)
        (.fragment f) (some (blk, (roundUp pl size : ℤ))) (.fragment g) = place (.fragment g) := by
      intro g hg
      rw [Function.update_of_ne (by simpa using hg), Function.update_of_ne (by simp)]
    refine ⟨_, _, rfl, h.move hpc (List.Sublist.refl _) (fun g hg _ _ _ ↦ Or.inl hg)
      (fun ptr n hr ↦ by cases hr) (h.ledger.pass (.fragment f) hplace)
      h.index (fun g hg ↦ ⟨rfl, hother g fun heq ↦ hg (heq ▸ List.mem_cons_self)⟩) (fun t' ht' ↦ ?_)
      (fun g _ hg ↦ ?_) (fun g hg hg' ↦ absurd hg hg') (fun g hg x hx hcov ↦ ?_) rfl h.blockRecords
      ⟨hwanted, hjob, ⟨hpool, ?_⟩, ?_⟩⟩
    · rw [Function.update_of_ne (by simp), Function.update_of_ne (by simpa using ht')]
    · have hgf : g ≠ f := fun heq ↦ hg (heq ▸ hpool)
      exact (hother g hgf).trans (h.placed g hg)
    · have hgf : g ≠ f := fun heq ↦ hown (heq ▸ hg)
      rw [hother g hgf]
      exact hcov
    · rw [Function.update_self, hextent]
    · rw [Allocator.size, hfold]
      simp only [wholeBlock]
      omega

theorem WorldInv.linkFragment (h : WorldInv pl w place) {b f size : ℕ} {job : Job}
    (hpc : w.pc t = .linkFragment b f size job) : Advances pl w t input := by
  have hok := h.ok t
  rw [hpc] at hok
  refine ⟨w.edit t (addToBlock w.s b f) (.checkSize f size (.fresh job)), place, ?_,
    h.silent hpc rfl rfl rfl rfl rfl rfl h.blockRecords hok⟩
  rw [World.advance, hpc, World.stepFrom]

/-! ## `memoryFragmentSplit` -/

theorem WorldInv.checkSize (h : WorldInv pl w place) {f size : ℕ} {origin : Origin}
    (hpc : w.pc t = .checkSize f size origin) : Advances pl w t input := by
  have hok := h.ok t
  rw [hpc] at hok
  have hpos := hok.1.pos
  have hle : (size : ℤ) ≤ (w.s.frags f).size := hok.2.2.2
  refine ⟨w.goto t (.checkPool f size origin), place, ?_, h.goto hpc rfl rfl rfl hok⟩
  rw [World.advance, hpc]
  unfold World.stepFrom
  dsimp only
  rw [hok.1.toInt_eq, if_neg (by omega)]

theorem WorldInv.checkPool (h : WorldInv pl w place) {f size : ℕ} {origin : Origin}
    (hpc : w.pc t = .checkPool f size origin) : Advances pl w t input := by
  have hok := h.ok t
  rw [hpc] at hok
  obtain ⟨hwanted, horigin, hbefore, hle⟩ := hok
  rw [Advances, World.advance, hpc, World.stepFrom]
  split_ifs with hpool
  · have hheld : Held w.s place f := by
      cases origin with
      | pool p job => simp [Origin.Before, hpool] at hbefore
      | fresh job => exact hbefore
      | shrink ptr => simp [Origin.Before, hpool] at hbefore
    exact ⟨_, place, rfl, h.goto hpc rfl rfl rfl ⟨hwanted, horigin, hheld, hle⟩⟩
  · exact ⟨_, place, rfl, h.goto hpc rfl rfl rfl ⟨hwanted, horigin, hpool, hle⟩⟩

theorem WorldInv.loadPool (h : WorldInv pl w place) {f size : ℕ} {origin : Origin}
    (hpc : w.pc t = .loadPool f size origin) : Advances pl w t input := by
  have hok := h.ok t
  rw [hpc] at hok
  obtain ⟨hwanted, horigin, hpool, hle⟩ := hok
  refine ⟨w.goto t (.remove f (w.s.frags f).pool size origin), place, ?_,
    h.goto hpc rfl rfl rfl ⟨hwanted, horigin, rfl, hpool, hle⟩⟩
  rw [World.advance, hpc, World.stepFrom]

theorem WorldInv.remove (h : WorldInv pl w place) {f size : ℕ} {pool : Option Pool}
    {origin : Origin} (hpc : w.pc t = .remove f pool size origin) : Advances pl w t input := by
  have hok := h.ok t
  rw [hpc] at hok
  obtain ⟨hwanted, horigin, hpool, hne, hle⟩ := hok
  obtain ⟨p, rfl⟩ := Option.ne_none_iff_exists'.mp hne
  obtain ⟨trees, hremove, hindex⟩ := indexes_remove h.index h.ordered_of_pool hpool
  have hnodup := h.nodup t
  rw [hpc] at hnodup
  have hown : f ∉ origin.fragments := (List.nodup_cons.mp hnodup).1
  have hplace : place (.fragment f) = some (extent (repool w.s p trees f none) f) := by
    simpa [extent] using h.placed f (by simp [hpool])
  have horigin' : origin.Ok (repool w.s p trees f none) f :=
    horigin.congr (by simp) fun g hg ↦ frags_repool_of_ne fun heq ↦ hown (heq ▸ hg)
  refine ⟨w.edit t (repool w.s p trees f none) (.checkWhole f size origin), place, ?_, ?_⟩
  · rw [World.advance, hpc, World.stepFrom, ← hremove]
  · refine h.stay hpc (by rfl) (by rfl) (by rfl) hindex (fun g hg ↦ ?_) (fun g _ hg ↦ ?_) rfl
      h.blockRecords ⟨hwanted, horigin', ⟨by simp, hplace⟩, by simpa using hle⟩
    · exact frags_repool_of_ne fun heq ↦ hg (heq ▸ List.mem_cons_self)
    · rw [pool_repool] at hg
      split_ifs at hg
      · exact absurd rfl hg
      · simpa [extent] using h.placed g hg

theorem WorldInv.checkWhole (h : WorldInv pl w place) {f size : ℕ} {origin : Origin}
    (hpc : w.pc t = .checkWhole f size origin) : Advances pl w t input := by
  have hok := h.ok t
  rw [hpc] at hok
  obtain ⟨hwanted, horigin, hheld, hle⟩ := hok
  rw [Advances, World.advance, hpc, World.stepFrom, hwanted.toInt_eq]
  split_ifs with hsame
  · have hlt : (size : ℤ) < w.s.size f := lt_of_le_of_ne hle fun heq ↦ hsame heq.symm
    exact ⟨_, place, rfl, h.goto hpc rfl rfl rfl ⟨hwanted, horigin, hheld, hlt⟩⟩
  · have heq : w.s.size f = size := not_not.mp hsame
    exact ⟨_, place, rfl, h.goto hpc rfl rfl rfl ⟨hwanted, horigin, hheld, heq⟩⟩

theorem WorldInv.getRemainder (h : WorldInv pl w place) {f size : ℕ} {origin : Origin}
    (hpc : w.pc t = .getRemainder f size origin) : Advances pl w t input := by
  have hok := h.ok t
  rw [hpc] at hok
  obtain ⟨hwanted, horigin, hheld, hlt⟩ := hok
  obtain ⟨s', r, hget, hfresh, hfrags, -, hpools, hused, hbfree, -, hrecords⟩ :=
    memoryFragmentGetNew_spec pl h.records
  rw [not_or, not_not, not_exists] at hfresh
  have hnodup := h.nodup t
  have hown := hfresh.2 t
  rw [hpc] at hnodup hown
  have hnodup' : (f :: r :: origin.fragments).Nodup :=
    (List.Perm.swap f r _).nodup (List.nodup_cons.mpr ⟨hown, hnodup⟩)
  have hmem : ∀ g, g ∈ f :: r :: origin.fragments ↔ g = r ∨ g ∈ f :: origin.fragments := fun g ↦ by
    simp only [List.mem_cons]
    exact or_left_comm
  refine ⟨w.edit t s' (.initRemainder f r 0 size origin), place, ?_,
    h.acquire hpc hmem hnodup' (fun t' _ ↦ hfresh.2 t') (fun g hg ↦ hg) (fun x _ hset ↦ ?_) rfl
      hfrags hpools hrecords (by rw [hbfree, hused]; exact h.blockRecords)
      ⟨hwanted, horigin, hheld, hlt, hfresh.1, foldl_fragmentWrites _ _⟩⟩
  · rw [World.advance, hpc, World.stepFrom, hget]
    rfl
  · have halloc := hset.handed hfresh.2
    simp [hfresh.1] at halloc

theorem WorldInv.initRemainder (h : WorldInv pl w place) {f r stage size : ℕ} {origin : Origin}
    (hpc : w.pc t = .initRemainder f r stage size origin) : Advances pl w t input := by
  have hok := h.ok t
  rw [hpc] at hok
  obtain ⟨hwanted, horigin, hheld, hlt, hpool, hfold⟩ := hok
  have hnodup := h.nodup t
  rw [hpc] at hnodup
  obtain ⟨hfr, hown⟩ : f ≠ r ∧ r ∉ origin.fragments := by
    simp only [PC.fragments, List.nodup_cons, List.mem_cons, not_or] at hnodup
    exact ⟨hnodup.1.1, hnodup.2.1⟩
  rw [Advances, World.advance, hpc, World.stepFrom, hwanted.toInt_eq]
  split
  · rename_i write hwrite
    rw [foldl_writes_some hwrite] at hfold
    have hout := pool_of_fragmentWrites (rfl : (remainderOf w.s f size).pool = none) hpool
      (List.mem_of_getElem? hwrite)
    have hf : (w.s.setFrag r (write (w.s.frags r))).frags f = w.s.frags f := by simp [hfr]
    refine ⟨w.edit t (w.s.setFrag r (write (w.s.frags r)))
      (.initRemainder f r (stage + 1) size origin), place, rfl, ?_⟩
    refine h.write hpc (by rfl) (by rfl) (by rfl)
      (List.mem_cons_of_mem _ List.mem_cons_self) hpool hout
      ⟨hwanted, horigin.congr (congrArg Fragment.start hf) fun g hg ↦ ?_,
        hheld.congr hf rfl, ?_, ?_,
        ?_⟩
    · have hgr : g ≠ r := fun heq ↦ hown (heq ▸ hg)
      simp [hgr]
    · rwa [Allocator.size, hf]
    · simpa using hout
    · have hsame : remainderOf (w.s.setFrag r (write (w.s.frags r))) f size =
          remainderOf w.s f size := by simp only [remainderOf, hf]
      rw [hsame]
      simpa using hfold
  · rename_i hwrite
    rw [foldl_writes_none hwrite] at hfold
    refine ⟨_, place, rfl, h.goto hpc rfl rfl rfl ⟨hwanted, horigin, hheld, hlt, hpool, ?_, ?_⟩⟩
    · rw [Allocator.start, hfold]
      rfl
    · rw [Allocator.size, hfold]
      rfl

theorem WorldInv.linkRemainder (h : WorldInv pl w place) {f r size : ℕ} {origin : Origin}
    (hpc : w.pc t = .linkRemainder f r size origin) : Advances pl w t input := by
  have hok := h.ok t
  rw [hpc] at hok
  refine ⟨w.edit t (addToBlock w.s (w.s.frags f).block r) (.cutEnd f r size origin), place, ?_,
    h.silent hpc rfl rfl rfl rfl rfl rfl h.blockRecords hok⟩
  rw [World.advance, hpc, World.stepFrom]

theorem WorldInv.cutEnd (h : WorldInv pl w place) {f r size : ℕ} {origin : Origin}
    (hpc : w.pc t = .cutEnd f r size origin) : Advances pl w t input := by
  have hok := h.ok t
  rw [hpc] at hok
  obtain ⟨hwanted, horigin, hheld, hlt, hpool, hstart, hsize⟩ := hok
  have hnodup := h.nodup t
  rw [hpc] at hnodup
  obtain ⟨hfr, hown⟩ : f ≠ r ∧ f ∉ origin.fragments := by
    simp only [PC.fragments, List.nodup_cons, List.mem_cons, not_or] at hnodup
    exact hnodup.1
  refine ⟨w.edit t (w.s.setFrag f { w.s.frags f with
    endAddr := (w.s.frags f).endAddr + toInt size }) (.cutSize f r size origin), place, ?_, ?_⟩
  · rw [World.advance, hpc, World.stepFrom]
  · refine h.write hpc (by rfl) (by rfl) (by rfl) List.mem_cons_self hheld.1 hheld.1
      ⟨hwanted, horigin.congr (by simp [Allocator.start]) fun g hg ↦ ?_,
        ⟨by simp [hheld.1], ?_⟩, ?_,
        by simpa [hfr.symm] using hpool, ?_, ?_⟩
    · have hgf : g ≠ f := fun heq ↦ hown (heq ▸ hg)
      simp [hgf]
    · simpa [extent, Allocator.start, Allocator.size] using hheld.2
    · simpa [Allocator.size] using hlt
    · simpa [Allocator.start, hfr.symm] using hstart
    · simpa [Allocator.size, hfr.symm] using hsize

theorem Origin.kept_of_shrinks (size : ℕ) {f g : ℕ} {origin : Origin} (hg : g ∈ origin.kept f) :
    g ∈ origin.fragments ∨ g = f ∧ ∃ ptr, origin.shrinks size = some (ptr, size) ∧
      ∀ s : Allocator, origin.Ok s f → s.start f = ptr := by
  cases origin with
  | pool p job => exact Or.inl hg
  | fresh job => exact Or.inl hg
  | shrink ptr => exact Or.inr ⟨List.mem_singleton.mp hg, ptr, rfl, fun s hok ↦ hok⟩

/-- The cut becomes visible when the size is written. -/
theorem WorldInv.cutSize (h : WorldInv pl w place) {f r size : ℕ} {origin : Origin}
    (hpc : w.pc t = .cutSize f r size origin) : Advances pl w t input := by
  have hok := h.ok t
  rw [hpc] at hok
  obtain ⟨hwanted, horigin, hheld, hlt, hpool, hstart, hsize⟩ := hok
  have hnodup := h.nodup t
  rw [hpc] at hnodup
  obtain ⟨⟨hfr, hfown⟩, hrown, -⟩ : (f ≠ r ∧ f ∉ origin.fragments) ∧ r ∉ origin.fragments ∧
      origin.fragments.Nodup := by
    simpa only [PC.fragments, List.nodup_cons, List.mem_cons, not_or] using hnodup
  have hmem : ∀ g, g ∈ (w.pc t).fragments ↔ g = f ∨ g = r ∨ g ∈ origin.fragments := fun g ↦ by
    rw [hpc, PC.fragments, List.mem_cons, List.mem_cons]
  let s' := w.s.setFrag f { w.s.frags f with size := toInt size }
  let place' := Function.update (Function.update place (.fragment r)
    (some (w.s.start f + size, w.s.size f - size))) (.fragment f) (some (w.s.start f, (size : ℤ)))
  have hne : ∀ g, g ≠ f → s'.frags g = w.s.frags g := fun g hg ↦ by simp [s', hg]
  have hplace : ∀ g, g ≠ f → g ≠ r → place' (.fragment g) = place (.fragment g) := fun g hf hr ↦ by
    simp [place', Function.update_of_ne, hf, hr]
  have hself : extent s' f = (w.s.start f, (size : ℤ)) := by
    simp [s', extent, Allocator.start, Allocator.size, hwanted.toInt_eq]
  have hrest : extent s' r = (w.s.start f + size, w.s.size f - size) := by
    rw [extent, Allocator.start, Allocator.size, hne r hfr.symm, ← hstart, ← hsize]
    rfl
  have hout : (s'.frags f).pool = none := by simp [s', hheld.1]
  have hout' : (s'.frags r).pool = none := by rw [hne r hfr.symm]; exact hpool
  have hledger : Ledger w.regions place' := h.ledger.cut hheld.2 hwanted.pos hlt
  refine ⟨w.edit t s' (.addRemainder f r size origin), place', ?_, ?_⟩
  · rw [World.advance, hpc, World.stepFrom]
  refine h.move rfl (by rw [hpc]; exact List.Sublist.refl _)
    (fun g hg _ _ _ ↦ Or.inl (by rwa [hpc] at hg))
    (fun ptr n hr ↦ h.bounds t ptr n (by rw [hpc]; exact hr)) hledger
    (indexes_congr h.index rfl fun g ↦ ?_) (fun g hg ↦ ?_)
    (fun t' _ ↦ by simp [place', Function.update_of_ne]) (fun g hg hg' ↦ ?_)
    (fun g hg hg' ↦ absurd (by rwa [hpc] at hg) hg') (fun g hg x hx hcov ↦ ?_) rfl h.blockRecords
    ⟨hwanted, horigin.congr (congrArg Prod.fst hself) fun g hg ↦ hne g fun heq ↦ hfown (heq ▸ hg),
      ⟨hout, by rw [hself]; simp [place']⟩, congrArg Prod.snd hself, hout', ?_⟩
  · by_cases hgf : g = f
    · exact Or.inr ⟨hgf ▸ hheld.1, hgf ▸ hout⟩
    · exact Or.inl (hne g hgf)
  · rw [hmem, not_or, not_or] at hg
    exact ⟨hne g hg.1, hplace g hg.1 hg.2.1⟩
  · have hgf : g ≠ f := fun heq ↦ hg' (heq ▸ hout)
    have hgr : g ≠ r := fun heq ↦ hg' (heq ▸ hout')
    rw [hplace g hgf hgr, extent, Allocator.start, Allocator.size, hne g hgf]
    exact h.placed g (by rwa [hne g hgf] at hg')
  · rw [hpc] at hg
    rcases Origin.kept_of_shrinks size hg with hg | ⟨rfl, ptr, hshrinks, hptr⟩
    · have hgf : g ≠ f := fun heq ↦ hfown (heq ▸ hg)
      have hgr : g ≠ r := fun heq ↦ hrown (heq ▸ hg)
      rw [hplace g hgf hgr]
      exact hcov
    · obtain ⟨n, hn, -⟩ := hcov
      have hx1 : w.s.start g = x.1 := by
        have heq := hheld.2.symm.trans hn
        exact congrArg Prod.fst (Option.some.inj heq)
      refine ⟨size, by simp [place', hx1], ?_⟩
      exact h.bounds t ptr size (by rw [hpc]; exact hshrinks) x hx
        (hx1.symm.trans (hptr _ horigin))
  · rw [hrest]
    simp [place', Function.update_of_ne, hfr.symm]

theorem WorldInv.addRemainder (h : WorldInv pl w place) {f r size : ℕ} {origin : Origin}
    (hpc : w.pc t = .addRemainder f r size origin) : Advances pl w t input := by
  have hok := h.ok t
  rw [hpc] at hok
  obtain ⟨hwanted, horigin, hheld, hsize, hrest⟩ := hok
  have hnodup := h.nodup t
  rw [hpc] at hnodup
  obtain ⟨⟨hfr, hfown⟩, hrown, -⟩ : (f ≠ r ∧ f ∉ origin.fragments) ∧ r ∉ origin.fragments ∧
      origin.fragments.Nodup := by
    simpa only [PC.fragments, List.nodup_cons, List.mem_cons, not_or] using hnodup
  obtain ⟨trees, hadd, hindex⟩ := h.add_held hrest .free
  have hne : ∀ g, g ≠ r → (repool w.s .free trees r (some .free)).frags g = w.s.frags g :=
    fun g hg ↦ frags_repool_of_ne hg
  refine ⟨w.edit t (repool w.s .free trees r (some .free)) (.addFragment f size origin),
    place, ?_, ?_⟩
  · rw [World.advance, hpc, World.stepFrom, hadd]
    rfl
  refine h.move hpc ((List.sublist_cons_self r _).cons_cons f) (fun g hg _ _ _ ↦ Or.inl hg)
    (fun ptr n hr ↦ h.bounds t ptr n (by rw [hpc]; exact hr)) h.ledger hindex
    (fun g hg ↦ ⟨hne g fun heq ↦ hg (by simp [heq, PC.fragments]), rfl⟩) (fun _ _ ↦ rfl)
    (fun g _ hg' ↦ ?_) (fun g hg hg' ↦ ?_) (fun _ _ _ _ hcov ↦ hcov) rfl h.blockRecords
    ⟨hwanted, horigin.congr (by simp) fun g hg ↦ hne g fun heq ↦ hrown (heq ▸ hg),
      hheld.congr (hne f hfr) rfl, by simpa using hsize⟩
  · by_cases hgr : g = r
    · simpa [hgr, extent] using hrest.2
    · rw [hne g hgr] at hg'
      simpa [extent] using h.placed g hg'
  · have hgr : g = r := by
      simp only [PC.fragments, List.mem_cons, not_or] at hg hg'
      tauto
    simp [hgr]

theorem WorldInv.addFragment (h : WorldInv pl w place) {f size : ℕ} {origin : Origin}
    (hpc : w.pc t = .addFragment f size origin) : Advances pl w t input := by
  have hok := h.ok t
  rw [hpc] at hok
  obtain ⟨hwanted, horigin, hheld, hsize⟩ := hok
  have hnodup := h.nodup t
  rw [hpc] at hnodup
  have hown : f ∉ origin.fragments := (List.nodup_cons.mp hnodup).1
  obtain ⟨trees, hadd, hindex⟩ := h.add_held hheld .alloc
  have hne : ∀ g, g ≠ f → (repool w.s .alloc trees f (some .alloc)).frags g = w.s.frags g :=
    fun g hg ↦ frags_repool_of_ne hg
  refine ⟨w.edit t (repool w.s .alloc trees f (some .alloc)) (.finish f size origin), place, ?_, ?_⟩
  · rw [World.advance, hpc, World.stepFrom, hadd]
    rfl
  refine h.stay hpc (by rfl) (by rfl) (by rfl) hindex
    (fun g hg ↦ hne g fun heq ↦ hg (heq ▸ List.mem_cons_self)) (fun g _ hg' ↦ ?_) rfl h.blockRecords
    ⟨hwanted, horigin.congr (by simp) fun g hg ↦ hne g fun heq ↦ hown (heq ▸ hg), by simp,
      by simpa using hsize⟩
  by_cases hgf : g = f
  · simpa [hgf, extent] using hheld.2
  · rw [hne g hgf] at hg'
    simpa [extent] using h.placed g hg'

/-- A buffer that shrinks is on the ledger, in the hands of the thread that shrinks it. -/
theorem WorldInv.shrinking (h : WorldInv pl w place) {ptr : ℤ} {size : ℕ}
    (ht : (w.pc t).shrinks = some (ptr, size)) :
    ∃ g ∈ (w.pc t).fragments, ∃ n, place (.fragment g) = some (ptr, n) := by
  have hok := h.ok t
  -- the fragment starts at `ptr`, and is in a pool or held
  have hfound : ∀ {f : ℕ} {origin : Origin} {n : ℕ}, origin.shrinks n = some (ptr, size) →
      origin.Ok w.s f → (w.s.frags f).pool ≠ none ∨ Held w.s place f →
      ∃ m, place (.fragment f) = some (ptr, m) := by
    intro f origin n hshrinks horigin hplace
    cases origin with
    | pool p job => cases hshrinks
    | fresh job => cases hshrinks
    | shrink p =>
        obtain ⟨rfl, -⟩ := Prod.mk.inj (Option.some.inj hshrinks)
        have hextent : place (.fragment f) = some (extent w.s f) := by
          rcases hplace with hpool | hheld
          · exact h.placed f hpool
          · exact hheld.2
        exact ⟨w.s.size f, by rw [hextent, extent, horigin]⟩
  have hbefore : ∀ {f : ℕ} {origin : Origin}, origin.Before w.s place f →
      (w.s.frags f).pool ≠ none ∨ Held w.s place f := by
    intro f origin hbefore
    cases origin with
    | pool p job => exact Or.inl (by simp [show (w.s.frags f).pool = some p from hbefore])
    | fresh job => exact Or.inr hbefore
    | shrink p => exact Or.inl (by simp [show (w.s.frags f).pool = some .alloc from hbefore])
  cases hpc : w.pc t with
  | checkSize f n origin | checkPool f n origin =>
      rw [hpc] at hok ht
      exact ⟨f, List.mem_cons_self, hfound ht hok.2.1 (hbefore hok.2.2.1)⟩
  | loadPool f n origin =>
      rw [hpc] at hok ht
      exact ⟨f, List.mem_cons_self, hfound ht hok.2.1 (Or.inl hok.2.2.1)⟩
  | remove f pool n origin =>
      rw [hpc] at hok ht
      exact ⟨f, List.mem_cons_self, hfound ht hok.2.1
        (Or.inl (by rw [hok.2.2.1]; exact hok.2.2.2.1))⟩
  | checkWhole f n origin | getRemainder f n origin | addFragment f n origin =>
      rw [hpc] at hok ht
      exact ⟨f, List.mem_cons_self, hfound ht hok.2.1 (Or.inr hok.2.2.1)⟩
  | initRemainder f r stage n origin | linkRemainder f r n origin | cutEnd f r n origin
  | cutSize f r n origin | addRemainder f r n origin =>
      rw [hpc] at hok ht
      exact ⟨f, List.mem_cons_self, hfound ht hok.2.1 (Or.inr hok.2.2.1)⟩
  | finish f n origin =>
      rw [hpc] at hok ht
      exact ⟨f, List.mem_cons_self, hfound ht hok.2.1 (Or.inl (by simp [hok.2.2.1]))⟩
  | _ =>
      rw [hpc] at ht
      cases ht

/-- Only one fragment starts at an address. -/
theorem WorldInv.eq_of_start (h : WorldInv pl w place) {g : ℕ} {a n m : ℤ}
    (hf : place (.fragment f) = some (a, n)) (hg : place (.fragment g) = some (a, m)) : g = f := by
  have heq : Owner.fragment g = .fragment f := h.ledger.eq_of_start_eq hg hf
  exact Owner.fragment.inj heq

/-- A thread is done with the only fragment it has in hand. -/
theorem WorldInv.rest (h : WorldInv pl w place) {old : PC} (hpc : w.pc t = old)
    (hfrags : old.fragments = [f]) (hpool : (w.s.frags f).pool = some .alloc) :
    WorldInv pl (w.goto t .idle) place := by
  have honly : ∀ g ∈ old.fragments, g = f := fun g hg ↦ by simpa [hfrags] using hg
  refine h.move hpc (List.nil_sublist _) (fun g hg _ _ _ ↦ Or.inr ⟨List.not_mem_nil, ?_⟩)
    (fun ptr n hr ↦ by cases hr) h.ledger h.index (fun g _ ↦ ⟨rfl, rfl⟩) (fun _ _ ↦ rfl)
    (fun g _ hg ↦ h.placed g hg) (fun g hg _ ↦ ?_) (fun _ _ _ _ hcov ↦ hcov) rfl h.blockRecords
    trivial
  · rw [honly g (old.mem_fragments_of_kept hg)]
    exact hpool
  · rw [honly g hg, hpool]
    simp

/-- `memalloc` returns. -/
theorem WorldInv.returned (h : WorldInv pl w place) {f size : ℕ} {origin : Origin} {pc : PC}
    (hpc : w.pc t = .finish f size origin) (hkept : origin.kept f = origin.fragments)
    (hfrags : pc.fragments = origin.fragments) (hkept' : pc.kept = origin.fragments)
    (hshrinks : pc.shrinks = none) (hok' : pc.Ok pl w.s place t) :
    WorldInv pl { w.edit t (w.s.addBytes size) pc with
      live := (w.s.start f, (size : ℤ)) :: w.live } place := by
  have hok := h.ok t
  rw [hpc] at hok
  obtain ⟨hwanted, horigin, hpool, hsize⟩ := hok
  have hnodup := h.nodup t
  rw [hpc] at hnodup
  have hown : f ∉ origin.fragments := (List.nodup_cons.mp hnodup).1
  have hplace := h.placed f (by simp [hpool])
  have hmine : f ∈ (w.pc t).fragments := by
    rw [hpc]
    exact List.mem_cons_self
  have hmoved : WorldInv pl (w.edit t (w.s.addBytes size) pc) place := by
    refine h.move hpc (by rw [hfrags]; exact List.sublist_cons_self f _)
      (fun g hg _ _ _ ↦ Or.inl ?_) (fun ptr n hr ↦ by rw [hshrinks] at hr; cases hr) h.ledger
      (indexes_congr h.index rfl fun g ↦ Or.inl rfl) (fun g _ ↦ ⟨rfl, rfl⟩) (fun _ _ ↦ rfl)
      (fun g _ hg ↦ h.placed g hg) (fun g hg hg' ↦ ?_) (fun _ _ _ _ hcov ↦ hcov) rfl h.blockRecords
      (hok'.congr (fun g _ ↦ ⟨rfl, rfl⟩) rfl)
    · rw [hkept', ← hkept]
      exact hg
    · rw [hfrags] at hg'
      rcases List.mem_cons.mp hg with rfl | hg
      · simp [hpool]
      · exact absurd hg hg'
  refine hmoved.remember (f := f) ⟨⟨size, ?_, le_rfl⟩, fun t' ht' ↦ ?_, fun _ ↦ hpool⟩
    (fun y hy heq ↦ ?_) (fun t' ptr n ht' heq ↦ ?_)
  · rw [hplace, extent, hsize]
  · simp only [World.edit, Function.update_apply] at ht'
    split_ifs at ht' with hself
    · exact absurd (hfrags ▸ ht') hown
    · exact absurd (h.exclusive t' t f ht' hmine) hself
  · obtain ⟨g, ⟨n, hg, -⟩, hg', -⟩ := h.settled y hy
    rw [heq] at hg
    obtain rfl := h.eq_of_start hplace hg
    have hin := hg' t hmine
    rw [hpc] at hin
    exact hown (hkept ▸ hin)
  · simp only [World.edit, Function.update_apply] at ht'
    split_ifs at ht' with hself
    · rw [hshrinks] at ht'
      cases ht'
    · obtain ⟨g, hg, m, hm⟩ := h.shrinking ht'
      rw [← heq] at hm
      obtain rfl := h.eq_of_start hplace hm
      exact absurd (h.exclusive t' t g hg hmine) hself

theorem WorldInv.finish (h : WorldInv pl w place) {f size : ℕ} {origin : Origin}
    (hpc : w.pc t = .finish f size origin) : Advances pl w t input := by
  have hok := h.ok t
  rw [hpc] at hok
  obtain ⟨hwanted, horigin, hpool, hsize⟩ := hok
  rw [Advances, World.advance, hpc]
  cases origin with
  | pool p job =>
      cases job with
      | memalloc => exact ⟨_, place, rfl, h.returned hpc rfl rfl rfl rfl trivial⟩
      | grow ptr old => exact ⟨_, place, rfl, h.returned hpc rfl rfl rfl rfl horigin⟩
  | fresh job =>
      cases job with
      | memalloc => exact ⟨_, place, rfl, h.returned hpc rfl rfl rfl rfl trivial⟩
      | grow ptr old => exact ⟨_, place, rfl, h.returned hpc rfl rfl rfl rfl horigin⟩
  | shrink ptr => exact ⟨w.goto t .idle, place, rfl, h.rest hpc rfl hpool⟩

end HavokMud.Memory
