import HavokMud.Memory.Pools

/-!
# The two indexes of a pool

Both trees of a pool hold exactly the fragments that name the pool, the size index each of them
under its present size.  `memoryFragmentAdd` and `memoryFragmentRemove` keep that, and the two
searches answer accordingly.
-/

namespace HavokMud.Memory

open BinaryTree BTree SearchTree

/-- The common effect of `memoryFragmentAdd` and `memoryFragmentRemove`: new trees for a pool, and
the pool the fragment now names. -/
def repool (s : Allocator) (pool : Pool) (trees : MemoryPool) (f : ℕ) (o : Option Pool) :
    Allocator :=
  (s.setPool pool trees).setFrag f { s.frags f with pool := o }

section Repool

variable (s : Allocator) (pool pool' : Pool) (trees : MemoryPool) (f g : ℕ) (o : Option Pool)

@[simp]
theorem pools_repool :
    (repool s pool trees f o).pools pool' = if pool' = pool then trees else s.pools pool' := by
  simp [repool]

@[simp]
theorem pool_repool : ((repool s pool trees f o).frags g).pool =
    if g = f then o else (s.frags g).pool := by
  by_cases hg : g = f <;> simp [repool, hg]

theorem frags_repool_of_ne {s : Allocator} {pool : Pool} {trees : MemoryPool} {f g : ℕ}
    {o : Option Pool} (hg : g ≠ f) : (repool s pool trees f o).frags g = s.frags g := by
  simp [repool, hg]

@[simp]
theorem start_repool : (repool s pool trees f o).start = s.start := by
  funext g
  by_cases hg : g = f <;> simp [repool, Allocator.start, hg]

@[simp]
theorem size_repool : (repool s pool trees f o).size = s.size := by
  funext g
  by_cases hg : g = f <;> simp [repool, Allocator.size, hg]

@[simp]
theorem block_repool : ((repool s pool trees f o).frags g).block = (s.frags g).block := by
  by_cases hg : g = f <;> simp [repool, hg]

@[simp]
theorem endAddr_repool : ((repool s pool trees f o).frags g).endAddr = (s.frags g).endAddr := by
  by_cases hg : g = f <;> simp [repool, hg]

@[simp]
theorem timestamp_repool :
    ((repool s pool trees f o).frags g).timestamp = (s.frags g).timestamp := by
  by_cases hg : g = f <;> simp [repool, hg]

@[simp] theorem blocks_repool : (repool s pool trees f o).blocks = s.blocks := rfl
@[simp] theorem blockUsedList_repool :
    (repool s pool trees f o).blockUsedList = s.blockUsedList := rfl
@[simp] theorem blockFreeList_repool :
    (repool s pool trees f o).blockFreeList = s.blockFreeList := rfl
@[simp] theorem fragmentFreeList_repool :
    (repool s pool trees f o).fragmentFreeList = s.fragmentFreeList := rfl
@[simp] theorem memAllocBytes_repool :
    (repool s pool trees f o).memAllocBytes = s.memAllocBytes := rfl
@[simp] theorem memAllocTrueBytes_repool :
    (repool s pool trees f o).memAllocTrueBytes = s.memAllocTrueBytes := rfl

end Repool

/-- The trees of `pool` index the fragments that name it. -/
structure Indexes (s : Allocator) (pool : Pool) : Prop where
  addr_mem : ∀ f, f ∈ inorder (s.pools pool).addrTree ↔ (s.frags f).pool = some pool
  addr_sorted : Sorted s.start (s.pools pool).addrTree
  size_sorted : Sorted id (s.pools pool).sizeTree
  size_cover : ∀ f, (s.frags f).pool = some pool → s.size f ∈ inorder (s.pools pool).sizeTree
  item_mem : ∀ k ∈ inorder (s.pools pool).sizeTree, ∀ f,
    f ∈ inorder ((s.pools pool).sizeItem k) ↔ (s.frags f).pool = some pool ∧ s.size f = k
  item_sorted : ∀ k ∈ inorder (s.pools pool).sizeTree, Sorted s.start ((s.pools pool).sizeItem k)
  item_ne_nil : ∀ k ∈ inorder (s.pools pool).sizeTree, (s.pools pool).sizeItem k ≠ .nil

/-- The comparison callbacks order the size and the start of the fragment. -/
structure Ordered (s : Allocator) (f : ℕ) : Prop where
  size_nonneg : 0 ≤ s.size f
  size_lt : s.size f < 2 ^ 31
  start_nonneg : 0 ≤ s.start f
  start_lt : s.start f < 2 ^ 63

variable {s s' : Allocator} {pool : Pool} {f : ℕ}

/-- An index depends on the fragments that name its pool alone. -/
theorem Indexes.congr (hidx : Indexes s pool) (hpools : s'.pools pool = s.pools pool)
    (hpool : ∀ g, (s'.frags g).pool = some pool ↔ (s.frags g).pool = some pool)
    (hstart : ∀ g, (s.frags g).pool = some pool → s'.start g = s.start g)
    (hsize : ∀ g, (s.frags g).pool = some pool → s'.size g = s.size g) : Indexes s' pool where
  addr_mem g := by rw [hpools, hpool g]; exact hidx.addr_mem g
  addr_sorted := by
    rw [hpools]
    exact hidx.addr_sorted.congr fun g hg ↦ hstart g ((hidx.addr_mem g).mp hg)
  size_sorted := by rw [hpools]; exact hidx.size_sorted
  size_cover g hg := by
    have hg' := (hpool g).mp hg
    rw [hpools, hsize g hg']
    exact hidx.size_cover g hg'
  item_mem k hk g := by
    rw [hpools] at hk ⊢
    rw [hidx.item_mem k hk g, hpool g]
    exact and_congr_right fun hg ↦ by rw [hsize g hg]
  item_sorted k hk := by
    rw [hpools] at hk ⊢
    exact (hidx.item_sorted k hk).congr fun g hg ↦ hstart g ((hidx.item_mem k hk g).mp hg).1
  item_ne_nil k hk := by
    rw [hpools] at hk ⊢
    exact hidx.item_ne_nil k hk

section Keys

variable (hidx : Indexes s pool) (hord : ∀ g, (s.frags g).pool = some pool → Ordered s g)

include hidx in
/-- Every key of the size tree is the size of a fragment of the pool. -/
theorem Indexes.exists_of_key {k : ℤ} (hk : k ∈ inorder (s.pools pool).sizeTree) :
    ∃ g, (s.frags g).pool = some pool ∧ s.size g = k := by
  obtain ⟨g, hg⟩ := List.exists_mem_of_ne_nil (inorder ((s.pools pool).sizeItem k))
    (mt inorder_eq_nil.mp (hidx.item_ne_nil k hk))
  exact ⟨g, (hidx.item_mem k hk g).mp hg⟩

include hidx hord

theorem Indexes.agrees_size {k : ℤ} (hk : 0 ≤ k) (hk' : k < 2 ^ 31) :
    Agrees (fun x ↦ keyCompareInt k (id x)) id k (s.pools pool).sizeTree := by
  refine agrees_keyCompareInt hk hk' fun x hx ↦ ?_
  obtain ⟨g, hg, rfl⟩ := hidx.exists_of_key hx
  exact ⟨(hord g hg).size_nonneg, (hord g hg).size_lt⟩

theorem Indexes.agrees_addr {k : ℤ} (hk : 0 ≤ k) (hk' : k < 2 ^ 63) :
    Agrees (fun g ↦ keyComparePointer k (s.start g)) s.start k (s.pools pool).addrTree :=
  agrees_keyComparePointer hk hk' fun g hg ↦
    ⟨(hord g ((hidx.addr_mem g).mp hg)).start_nonneg, (hord g ((hidx.addr_mem g).mp hg)).start_lt⟩

/-- The size tree is searched for the size of a fragment. -/
theorem Indexes.find_size {n : ℤ} (hn : 0 ≤ n) (hn' : n < 2 ^ 31) (k : ℤ) :
    treeFind keyCompareInt id n (s.pools pool).sizeTree = some k ↔
      k ∈ inorder (s.pools pool).sizeTree ∧ k = n :=
  hidx.size_sorted.find_eq_some_iff (hidx.agrees_size hord hn hn')

/-- The fragment found by address is the one that starts there. -/
theorem Indexes.findByAddr_iff {buffer : ℤ} (hpos : 0 < buffer) (hlt : buffer < 2 ^ 63) :
    memoryFragmentFindByAddr s pool buffer = some f ↔
      (s.frags f).pool = some pool ∧ s.start f = buffer := by
  rw [memoryFragmentFindByAddr, if_neg hpos.ne', treeFind,
    hidx.addr_sorted.find_eq_some_iff (hidx.agrees_addr hord hpos.le hlt), hidx.addr_mem]

/-- The fragment chosen by size belongs to the pool and is large enough. -/
theorem Indexes.select_spec {n : ℤ} (hn : 0 ≤ n) (hn' : n < 2 ^ 31)
    (hsel : memoryFragmentSelect s pool n = some f) :
    (s.frags f).pool = some pool ∧ n ≤ s.size f := by
  rw [memoryFragmentSelect, Option.bind_eq_bind, Option.bind_eq_some_iff] at hsel
  obtain ⟨k, hk, hf⟩ := hsel
  obtain hnone | ⟨hkmem, hle⟩ := leastFrom_mem hk
  · simp at hnone
  · have hagrees := hidx.agrees_size hord hn hn'
    have hkn : n ≤ k := by
      by_contra hlt
      have := (hagrees.pos_iff k hkmem).mpr (not_le.mp hlt)
      omega
    have hfmem : f ∈ inorder ((s.pools pool).sizeItem k) := by
      rw [least_eq_head?] at hf
      exact List.mem_of_mem_head? hf
    obtain ⟨hpool, hsize⟩ := (hidx.item_mem k hkmem f).mp hfmem
    exact ⟨hpool, by rw [hsize]; exact hkn⟩

/-- Where no fragment is chosen by size, all fragments of the pool are too small. -/
theorem Indexes.size_lt_of_select {n : ℤ} (hn : 0 ≤ n) (hn' : n < 2 ^ 31)
    (hsel : memoryFragmentSelect s pool n = none) (hf : (s.frags f).pool = some pool) :
    s.size f < n := by
  have hagrees := hidx.agrees_size hord hn hn'
  have hcover := hidx.size_cover f hf
  rw [memoryFragmentSelect, Option.bind_eq_bind, Option.bind_eq_none_iff] at hsel
  cases hleast : treeFindLeastFrom keyCompareInt id n (s.pools pool).sizeTree with
  | none =>
      have hcut := hidx.size_sorted.cut hagrees
      exact (hagrees.pos_iff _ hcover).mp (pos_of_leastFrom_eq_none hcut hleast hcover)
  | some k =>
      obtain hnone | ⟨hk, -⟩ := leastFrom_mem hleast
      · cases hnone
      · have hempty := hsel k hleast
        rw [least_eq_head?, List.head?_eq_none_iff, inorder_eq_nil] at hempty
        exact absurd hempty (hidx.item_ne_nil k hk)

/-- The item a fragment of size `n` is put into: the old one, or a new one at its place. -/
theorem Indexes.sizeItemFor_spec {n : ℤ} (hn : 0 ≤ n) (hn' : n < 2 ^ 31) :
    ∃ sizeTree tree, sizeItemFor (s.pools pool) n = some (sizeTree, n, tree) ∧
      Sorted id sizeTree ∧
      (∀ k, k ∈ inorder sizeTree ↔ k = n ∨ k ∈ inorder (s.pools pool).sizeTree) ∧
      Sorted s.start tree ∧
      ∀ g, g ∈ inorder tree ↔ (s.frags g).pool = some pool ∧ s.size g = n := by
  have hfind := hidx.find_size hord hn hn'
  unfold sizeItemFor
  cases hres : treeFind keyCompareInt id n (s.pools pool).sizeTree with
  | some k =>
      obtain ⟨hk, rfl⟩ := (hfind k).mp hres
      refine ⟨_, _, rfl, hidx.size_sorted, fun x ↦ ?_, hidx.item_sorted k hk, hidx.item_mem k hk⟩
      exact ⟨Or.inr, fun h ↦ h.elim (fun heq ↦ heq ▸ hk) id⟩
  | none =>
      have hnew : ∀ x ∈ inorder (s.pools pool).sizeTree, id x ≠ id n := by
        rintro x hx rfl
        have := (hfind x).mpr ⟨hx, rfl⟩
        rw [hres] at this
        simp at this
      obtain ⟨sizeTree, hadd, hsorted, hmem⟩ :=
        treeAdd_sorted hidx.size_sorted (hidx.agrees_size hord hn hn') hnew
      refine ⟨sizeTree, .nil, by simp only [hadd]; rfl, hsorted, hmem, sorted_nil, fun g ↦ ?_⟩
      simp only [inorder_nil, List.not_mem_nil, false_iff, not_and]
      intro hg heq
      exact hnew (s.size g) (hidx.size_cover g hg) heq

/-- `memoryFragmentAdd` of a fragment that starts where no fragment of the pool does. -/
theorem Indexes.add (hordf : Ordered s f)
    (hfresh : ∀ g, (s.frags g).pool = some pool → s.start g ≠ s.start f) :
    ∃ trees, memoryFragmentAdd s pool f = some (repool s pool trees f (some pool)) ∧
      Indexes (repool s pool trees f (some pool)) pool := by
  obtain ⟨sizeTree, tree, hitem, hsizes, hsizemem, htree, htreemem⟩ :=
    hidx.sizeItemFor_spec hord hordf.size_nonneg hordf.size_lt
  have hagrees : Agrees (fun g ↦ keyComparePointer (s.start f) (s.start g)) s.start (s.start f)
      tree := agrees_keyComparePointer hordf.start_nonneg hordf.start_lt fun g hg ↦
    have hpool := ((htreemem g).mp hg).1
    ⟨(hord g hpool).start_nonneg, (hord g hpool).start_lt⟩
  obtain ⟨tree', htree', hsorted', hmem'⟩ := treeAdd_sorted htree hagrees
    fun g hg ↦ hfresh g ((htreemem g).mp hg).1
  obtain ⟨addrTree, haddr, haddrs, haddrmem⟩ := treeAdd_sorted hidx.addr_sorted
    (hidx.agrees_addr hord hordf.start_nonneg hordf.start_lt)
    fun g hg ↦ hfresh g ((hidx.addr_mem g).mp hg)
  have hpool : ∀ g, ((if g = f then some pool else (s.frags g).pool) = some pool ↔
      g = f ∨ (s.frags g).pool = some pool) := by
    intro g
    by_cases hg : g = f <;> simp [hg]
  refine ⟨⟨sizeTree, Function.update (s.pools pool).sizeItem (s.size f) tree', addrTree⟩, ?_, ?_⟩
  · simp only [memoryFragmentAdd, hitem, Option.bind_eq_bind, Option.bind_some, htree', haddr]
    rfl
  · refine ⟨?_, ?_, ?_, ?_, ?_, ?_, ?_⟩ <;>
      simp only [pools_repool, if_true, pool_repool, start_repool, size_repool, hpool, hsizemem]
    · intro g
      rw [haddrmem, hidx.addr_mem]
    · exact haddrs
    · exact hsizes
    · rintro g (rfl | hg)
      · exact Or.inl rfl
      · exact Or.inr (hidx.size_cover g hg)
    · intro k hk g
      by_cases hkf : k = s.size f
      · subst hkf
        rw [Function.update_self, hmem' g, htreemem g]
        constructor
        · rintro (rfl | ⟨hg, heq⟩)
          · exact ⟨Or.inl rfl, rfl⟩
          · exact ⟨Or.inr hg, heq⟩
        · rintro ⟨rfl | hg, heq⟩
          · exact Or.inl rfl
          · exact Or.inr ⟨hg, heq⟩
      · rw [Function.update_of_ne hkf, hidx.item_mem k (hk.resolve_left hkf) g]
        constructor
        · exact fun ⟨hg, heq⟩ ↦ ⟨Or.inr hg, heq⟩
        · rintro ⟨rfl | hg, heq⟩
          · exact absurd heq.symm hkf
          · exact ⟨hg, heq⟩
    · intro k hk
      by_cases hkf : k = s.size f
      · rw [hkf, Function.update_self]
        exact hsorted'
      · rw [Function.update_of_ne hkf]
        exact hidx.item_sorted k (hk.resolve_left hkf)
    · intro k hk
      by_cases hkf : k = s.size f
      · rw [hkf, Function.update_self]
        rintro rfl
        simpa using (hmem' f).mpr (Or.inl rfl)
      · rw [Function.update_of_ne hkf]
        exact hidx.item_ne_nil k (hk.resolve_left hkf)

omit hidx in
/-- The fragment found at the start of a fragment of the tree is that fragment. -/
theorem withoutFound_eq {tree : BinaryTree ℕ} (hsorted : Sorted s.start tree)
    (htree : ∀ g ∈ inorder tree, (s.frags g).pool = some pool) (hf : f ∈ inorder tree) :
    withoutFound s (s.start f) tree = treeRemove f tree := by
  have hbound : ∀ g ∈ inorder tree, 0 ≤ s.start g ∧ s.start g < 2 ^ 63 := fun g hg ↦
    ⟨(hord g (htree g hg)).start_nonneg, (hord g (htree g hg)).start_lt⟩
  have hfind : treeFind keyComparePointer s.start (s.start f) tree = some f :=
    (hsorted.find_eq_some_iff
      (agrees_keyComparePointer (hbound f hf).1 (hbound f hf).2 hbound)).mpr ⟨hf, rfl⟩
  simp only [withoutFound, hfind]

/-- `memoryFragmentRemove` of a fragment of the pool. -/
theorem Indexes.remove (hf : (s.frags f).pool = some pool) :
    ∃ trees, memoryFragmentRemove s pool f = repool s pool trees f none ∧
      Indexes (repool s pool trees f none) pool := by
  have hn := hidx.size_cover f hf
  have hfaddr : f ∈ inorder (s.pools pool).addrTree := (hidx.addr_mem f).mpr hf
  have hfitem : f ∈ inorder ((s.pools pool).sizeItem (s.size f)) :=
    (hidx.item_mem _ hn f).mpr ⟨hf, rfl⟩
  have haddr := withoutFound_eq hord hidx.addr_sorted
    (fun g hg ↦ (hidx.addr_mem g).mp hg) hfaddr
  have hitem := withoutFound_eq hord (hidx.item_sorted _ hn)
    (fun g hg ↦ ((hidx.item_mem _ hn g).mp hg).1) hfitem
  have hfind : treeFind keyCompareInt id (s.size f) (s.pools pool).sizeTree = some (s.size f) :=
    (hidx.find_size hord (hord f hf).size_nonneg (hord f hf).size_lt _).mpr ⟨hn, rfl⟩
  have hpool : ∀ g, ((if g = f then none else (s.frags g).pool) = some pool ↔
      g ≠ f ∧ (s.frags g).pool = some pool) := by
    intro g
    by_cases hg : g = f <;> simp [hg]
  have hsplit : memoryFragmentRemove s pool f = repool s pool
      { dropFromSizes s (s.pools pool) (s.size f) (s.start f) with
        addrTree := treeRemove f (s.pools pool).addrTree } f none := by
    have hkeep : (dropFromSizes s (s.pools pool) (s.size f) (s.start f)).addrTree =
        (s.pools pool).addrTree := by
      simp only [dropFromSizes, hfind]
      split_ifs <;> rfl
    rw [memoryFragmentRemove, if_neg (not_not.mpr hf)]
    simp only [hkeep, haddr]
    rfl
  refine ⟨_, hsplit, ?_⟩
  simp only [dropFromSizes, hfind, hitem]
  -- whether the size keeps other fragments decides if its item stays
  split_ifs with hlast
  · have honly : ∀ g, (s.frags g).pool = some pool → s.size g = s.size f → g = f := by
      intro g hg heq
      by_contra hne
      have hmem : g ∈ inorder (treeRemove f ((s.pools pool).sizeItem (s.size f))) :=
        (mem_treeRemove (hidx.item_sorted _ hn)).mpr ⟨hne, (hidx.item_mem _ hn g).mpr ⟨hg, heq⟩⟩
      rw [← length_inorder, List.length_eq_zero_iff] at hlast
      simp [hlast] at hmem
    refine ⟨?_, ?_, ?_, ?_, ?_, ?_, ?_⟩ <;>
      simp only [pools_repool, if_true, pool_repool, start_repool, size_repool, hpool,
        mem_treeRemove hidx.addr_sorted, mem_treeRemove hidx.size_sorted, hidx.addr_mem]
    · exact fun g ↦ trivial
    · exact treeRemove_sorted hidx.addr_sorted f
    · exact treeRemove_sorted hidx.size_sorted _
    · exact fun g hg ↦ ⟨fun heq ↦ hg.1 (honly g hg.2 heq), hidx.size_cover g hg.2⟩
    · intro k hk g
      rw [hidx.item_mem k hk.2 g]
      constructor
      · exact fun ⟨hg, heq⟩ ↦ ⟨⟨fun hgf ↦ hk.1 (by rw [← heq, hgf]), hg⟩, heq⟩
      · exact fun ⟨⟨_, hg⟩, heq⟩ ↦ ⟨hg, heq⟩
    · exact fun k hk ↦ hidx.item_sorted k hk.2
    · exact fun k hk ↦ hidx.item_ne_nil k hk.2
  · refine ⟨?_, ?_, ?_, ?_, ?_, ?_, ?_⟩ <;>
      simp only [pools_repool, if_true, pool_repool, start_repool, size_repool, hpool,
        mem_treeRemove hidx.addr_sorted, hidx.addr_mem]
    · exact fun g ↦ trivial
    · exact treeRemove_sorted hidx.addr_sorted f
    · exact hidx.size_sorted
    · exact fun g hg ↦ hidx.size_cover g hg.2
    · intro k hk g
      by_cases hkf : k = s.size f
      · subst hkf
        rw [Function.update_self, mem_treeRemove (hidx.item_sorted _ hn),
          hidx.item_mem _ hn, and_assoc]
      · rw [Function.update_of_ne hkf, hidx.item_mem k hk g]
        constructor
        · exact fun ⟨hg, heq⟩ ↦ ⟨⟨fun hgf ↦ hkf (by rw [← heq, hgf]), hg⟩, heq⟩
        · exact fun ⟨⟨_, hg⟩, heq⟩ ↦ ⟨hg, heq⟩
    · intro k hk
      by_cases hkf : k = s.size f
      · rw [hkf, Function.update_self]
        exact treeRemove_sorted (hidx.item_sorted _ hn) f
      · rw [Function.update_of_ne hkf]
        exact hidx.item_sorted k hk
    · intro k hk
      by_cases hkf : k = s.size f
      · rw [hkf, Function.update_self]
        rintro hnil
        simp [hnil] at hlast
      · rw [Function.update_of_ne hkf]
        exact hidx.item_ne_nil k hk

end Keys

/-! ## All pools -/

section AllPools

variable (hidx : ∀ pool, Indexes s pool)
  (hord : ∀ g pool, (s.frags g).pool = some pool → Ordered s g)

include hidx hord

omit hidx hord in
/-- A move into a pool or out of it leaves the other pools alone. -/
theorem Indexes.repool_other {other : Pool} {trees : MemoryPool} {o : Option Pool}
    (h : Indexes s other) (hother : other ≠ pool) (hf : (s.frags f).pool ≠ some other)
    (ho : o ≠ some other) : Indexes (repool s pool trees f o) other := by
  refine h.congr (by simp [hother]) (fun g ↦ ?_) (fun g _ ↦ by simp) (fun g _ ↦ by simp)
  rw [pool_repool]
  by_cases hgf : g = f
  · simp [hgf, hf, ho]
  · simp [hgf]

/-- Taking a fragment out of its pool leaves the other pools alone. -/
theorem indexes_remove (hf : (s.frags f).pool = some pool) :
    ∃ trees, memoryFragmentRemove s pool f = repool s pool trees f none ∧
      ∀ other, Indexes (repool s pool trees f none) other := by
  obtain ⟨trees, heq, hidx'⟩ := (hidx pool).remove (hord · pool) hf
  refine ⟨trees, heq, fun other ↦ ?_⟩
  by_cases hother : other = pool
  · exact hother ▸ hidx'
  · exact (hidx other).repool_other hother (by simp [hf, Ne.symm hother]) (by simp)

/-- Putting a fragment that is in no pool into one leaves the other pools alone. -/
theorem indexes_add (hfout : (s.frags f).pool = none) (hordf : Ordered s f)
    (hfresh : ∀ g, (s.frags g).pool = some pool → s.start g ≠ s.start f) :
    ∃ trees, memoryFragmentAdd s pool f = some (repool s pool trees f (some pool)) ∧
      ∀ other, Indexes (repool s pool trees f (some pool)) other := by
  obtain ⟨trees, heq, hidx'⟩ := (hidx pool).add (hord · pool) hordf hfresh
  refine ⟨trees, heq, fun other ↦ ?_⟩
  by_cases hother : other = pool
  · exact hother ▸ hidx'
  · exact (hidx other).repool_other hother (by simp [hfout]) (by simp [Ne.symm hother])

end AllPools

/-- Changing fragments that are in no pool leaves all indexes alone. -/
theorem indexes_congr (hidx : ∀ pool, Indexes s pool) (hpools : s'.pools = s.pools)
    (hframe : ∀ g, s'.frags g = s.frags g ∨ (s.frags g).pool = none ∧ (s'.frags g).pool = none) :
    ∀ pool, Indexes s' pool := by
  intro pool
  refine (hidx pool).congr (by rw [hpools]) (fun g ↦ ?_) (fun g hg ↦ ?_) (fun g hg ↦ ?_)
  · rcases hframe g with heq | ⟨hout, hout'⟩
    · rw [heq]
    · simp [hout, hout']
  · rcases hframe g with heq | ⟨hout, -⟩
    · rw [Allocator.start, Allocator.start, heq]
    · simp [hout] at hg
  · rcases hframe g with heq | ⟨hout, -⟩
    · rw [Allocator.size, Allocator.size, heq]
    · simp [hout] at hg

end HavokMud.Memory
