import HavokMud.Memory.Clients

/-!
# The contents of allocations

`memalloc` clears what it hands out, `memrealloc` copies what it moves, and neither they nor
`memfree` nor a coalescing pass write anywhere else.  That no live allocation is written to is the
disjointness of what is handed out.
-/

namespace HavokMud.Memory

open BinaryTree BTree SearchTree HavokMud.Interval

/-- The bytes of an address range are the same in two memories. -/
def SameBytes (mem mem' : ℤ → UInt8) (x : ℤ × ℤ) : Prop :=
  ∀ a, x.1 ≤ a → a < x.1 + x.2 → mem' a = mem a

/-- What a call leaves in memory, with the pointer it returns.  `live` are the allocations before
the call, each with the size that was last requested for it. -/
structure Contents (s : State) (live : List (ℤ × ℤ)) (op : Op) (s' : State) (result : ℤ) :
    Prop where
  zeroed : ∀ size blk, op = .memalloc size blk →
    ∀ i : ℤ, 0 ≤ i → i < size → s'.mem (result + i) = 0
  copied : ∀ ptr size blk old, op = .memrealloc ptr size blk → 0 < size → (ptr, old) ∈ live →
    ∀ i : ℤ, 0 ≤ i → i < min old size → s'.mem (result + i) = s.mem (ptr + i)
  inPlace : ∀ ptr size blk old, op = .memrealloc ptr size blk → 0 < size → (ptr, old) ∈ live →
    size ≤ old → result = ptr
  frame : (∀ p bytes, op ≠ .write p bytes) → ∀ x ∈ live, SameBytes s.mem s'.mem x

variable {pl : Platform} {now : ℤ} {s s' : State} {live : List (ℤ × ℤ)} {x : ℤ × ℤ} {p n : ℤ}

/-! ## Writing beside a range -/

theorem SameBytes.refl (mem : ℤ → UInt8) (x : ℤ × ℤ) : SameBytes mem mem x :=
  fun _ _ _ ↦ rfl

theorem SameBytes.trans {mem₁ mem₂ mem₃ : ℤ → UInt8} (h₁₂ : SameBytes mem₁ mem₂ x)
    (h₂₃ : SameBytes mem₂ mem₃ x) : SameBytes mem₁ mem₃ x :=
  fun a hlo hhi ↦ (h₂₃ a hlo hhi).trans (h₁₂ a hlo hhi)

theorem sameBytes_memset {mem : ℤ → UInt8} (hapart : Apart p n x.1 x.2) (c : UInt8) :
    SameBytes mem (memset mem p c n) x := by
  intro a hlo hhi
  refine if_neg ?_
  rcases hapart with h | h <;> omega

theorem sameBytes_memcpy {mem : ℤ → UInt8} (hapart : Apart p n x.1 x.2) (src : ℤ) {count : ℤ}
    (hcount : count ≤ n) : SameBytes mem (memcpy mem p src count) x := by
  intro a hlo hhi
  refine if_neg ?_
  rcases hapart with h | h <;> omega

/-! ## What the calls write -/

theorem mem_memalloc {size : ℕ} {blk : ℤ} (hrun : Memory.memalloc pl s size blk = some (s', p)) :
    s'.mem = memset s.mem p 0 size := by
  obtain ⟨a, -, rfl⟩ := memalloc_eq_some.mp hrun
  rfl

theorem mem_coalesce (hrun : Memory.coalesce s now = some s') : s'.mem = s.mem := by
  simp only [Memory.coalesce, Option.bind_eq_bind, Option.bind_eq_some_iff,
    Option.some.injEq] at hrun
  obtain ⟨a, -, rfl⟩ := hrun
  rfl

/-- What is handed out stays the same fragment in `memalloc`. -/
theorem Inv.size_memalloc {a a' : Allocator} (hinv : Inv now [] a) {size : ℕ} {blk : ℤ}
    (hpos : 0 < size) (hfits : Fits pl size) (hmalloc : MallocFresh pl a size blk)
    (hrun : a.memalloc pl size blk = some (a', p)) {f : ℕ}
    (hf : (a.frags f).pool = some .alloc) : a'.size f = a.size f := by
  obtain ⟨a₁, g, hrun₁, -, hbeside, hbefore, -⟩ := hinv.memallocFragment pl hpos hfits hmalloc
  have hfg : f ≠ g := by
    rintro rfl
    exact hbefore hf
  simp only [Allocator.memalloc, hpos.ne', if_false, hrun₁, Option.bind_eq_bind, Option.bind_some,
    Option.some.injEq, Prod.mk.injEq] at hrun
  obtain ⟨rfl, -⟩ := hrun
  rw [Allocator.size_addBytes, Allocator.size, Allocator.size,
    hbeside.frags f (by simpa using hfg) (hinv.inUse_of_pool hf)]

namespace ClientInv

theorem mem_memfree (h : ClientInv now s live) {time : ℤ}
    (hrun : Memory.memfree pl s time p = some s') : s'.mem = s.mem := by
  rw [h.memfree_eq, Option.map_eq_some_iff] at hrun
  obtain ⟨a, -, rfl⟩ := hrun
  rfl

/-- What `memalloc` hands out is apart from what was live. -/
theorem apart_of_memalloc (h : ClientInv now s live) {size : ℕ} {blk : ℤ} (hpos : 0 < size)
    (hserves : Serves pl s size blk) (hrun : Memory.memalloc pl s size blk = some (s', p)) :
    ∀ x ∈ live, Apart p size x.1 x.2 := by
  obtain ⟨s₁, q, hrun₁, ⟨hafter, -⟩, -⟩ := h.memalloc hpos hserves
  obtain ⟨rfl, rfl⟩ := Prod.mk.inj (Option.some.inj (hrun₁.symm.trans hrun))
  have hapart := hafter.perm.pairwise hafter.inv.handed_apart fun hxy ↦ hxy.symm
  exact (List.pairwise_cons.mp hapart).1

theorem memalloc_contents (h : ClientInv now s live) {size : ℕ} {blk : ℤ}
    (hserves : Serves pl s size blk) (hrun : Memory.memalloc pl s size blk = some (s', p)) :
    (∀ i : ℤ, 0 ≤ i → i < size → s'.mem (p + i) = 0) ∧
      ∀ x ∈ live, SameBytes s.mem s'.mem x := by
  rw [mem_memalloc hrun]
  refine ⟨fun i hlo hhi ↦ if_pos (by omega), ?_⟩
  intro x hx
  rcases Nat.eq_zero_or_pos size with rfl | hpos
  · simpa using SameBytes.refl s.mem x
  · exact sameBytes_memset (h.apart_of_memalloc hpos hserves hrun x hx) 0

/-- A buffer that is moved takes its bytes along. -/
theorem moved_contents (h : ClientInv now s live) {size f : ℕ} {blk q time : ℤ} {s₁ : State}
    (hpos : 0 < size) (hserves : Serves pl s size blk)
    (hf : (s.allocator.frags f).pool = some .alloc) (hle : s.allocator.size f ≤ size)
    (halloc : Memory.memalloc pl s size blk = some (s₁, q))
    (hfree : Memory.memfree pl
      { s₁ with mem := memcpy s₁.mem q (s.allocator.start f) (s₁.allocator.size f) } time
      (s.allocator.start f) = some s') :
    (∀ i : ℤ, 0 ≤ i → i < s.allocator.size f →
        s'.mem (q + i) = s.mem (s.allocator.start f + i)) ∧
      ∀ x ∈ live, SameBytes s.mem s'.mem x := by
  obtain ⟨hfits, hfresh⟩ := hserves hpos
  obtain ⟨a, hrun, rfl⟩ := memalloc_eq_some.mp halloc
  have hsize : a.size f = s.allocator.size f := h.inv.size_memalloc hpos hfits hfresh hrun hf
  have hlive : (s.allocator.start f, s.allocator.size f) ∈ live :=
    h.perm.mem_iff.mp (h.inv.mem_handed.mpr ⟨f, hf, rfl⟩)
  have hframe := (h.memalloc_contents hserves halloc).2
  obtain ⟨s₂, q₂, hrun₂, ⟨h₁, -⟩, -⟩ := h.memalloc hpos hserves
  obtain ⟨rfl, rfl⟩ := Prod.mk.inj (Option.some.inj (hrun₂.symm.trans halloc))
  have h₂ : ClientInv now { s with
      allocator := a
      mem := memcpy (memset s.mem q₂ 0 size) q₂ (s.allocator.start f) (a.size f) }
      ((q₂, (size : ℤ)) :: live) := ⟨h₁.inv, h₁.noStrings, h₁.perm⟩
  rw [h₂.mem_memfree hfree]
  refine ⟨?_, ?_⟩
  · intro i hlo hhi
    calc
      memcpy (memset s.mem q₂ 0 size) q₂ (s.allocator.start f) (a.size f) (q₂ + i)
          = memset s.mem q₂ 0 size (s.allocator.start f + (q₂ + i - q₂)) :=
        if_pos (by omega)
      _ = memset s.mem q₂ 0 size (s.allocator.start f + i) := by rw [add_sub_cancel_left]
      _ = s.mem (s.allocator.start f + i) :=
        hframe _ hlive _ (by simp only; omega) (by simp only; omega)
  · intro x hx
    have hapart := h.apart_of_memalloc hpos hserves halloc x hx
    exact (hframe x hx).trans (sameBytes_memcpy hapart _ (hsize.le.trans hle))

theorem memrealloc_contents (h : ClientInv now s live) {ptr blk time : ℤ} {size : ℕ}
    (hplain : (Op.memrealloc ptr size blk).Plain live)
    (hsane : (Op.memrealloc ptr size blk).Sane pl s)
    (hrun : Memory.memrealloc pl s time ptr size blk = some (s', p)) :
    (∀ old, 0 < size → (ptr, old) ∈ live →
        (∀ i : ℤ, 0 ≤ i → i < min old size → s'.mem (p + i) = s.mem (ptr + i)) ∧
          (size ≤ old → p = ptr)) ∧
      ∀ x ∈ live, SameBytes s.mem s'.mem x := by
  obtain ⟨hfits, hnull, hgrow⟩ := hsane
  rcases hplain with rfl | ⟨n, hn⟩
  · rw [Memory.memrealloc, if_pos rfl] at hrun
    refine ⟨fun old _ hold ↦ ?_, (h.memalloc_contents (hnull rfl) hrun).2⟩
    exact absurd (h.inv.handed_inside (h.perm.mem_iff.mpr hold)).1 (lt_irrefl _)
  have hin := h.inv.handed_inside (h.perm.mem_iff.mpr hn)
  simp only at hin
  have hptr : ptr ≠ 0 := by omega
  rw [Memory.memrealloc, if_neg hptr] at hrun
  rcases Nat.eq_zero_or_pos size with rfl | hpos
  · simp only [if_true, Option.bind_eq_bind, Option.bind_eq_some_iff, Option.some.injEq,
      Prod.mk.injEq] at hrun
    obtain ⟨s₁, hfree, rfl, rfl⟩ := hrun
    rw [h.mem_memfree hfree]
    exact ⟨fun _ hzero ↦ absurd hzero (lt_irrefl _), fun x _ ↦ SameBytes.refl _ x⟩
  obtain ⟨f, hfind, hf, hextent⟩ := h.find_live hn
  obtain ⟨rfl, rfl⟩ := Prod.mk.inj hextent
  have hmod : s.allocator.size f % 2 ^ 64 = s.allocator.size f :=
    Int.emod_eq_of_lt (by omega) (by omega)
  have hold : ∀ old, (s.allocator.start f, old) ∈ live → old = s.allocator.size f := by
    intro old hmem
    by_contra hne
    have hother : (s.allocator.start f, old) ∈ live.erase (s.allocator.start f,
        s.allocator.size f) := (List.mem_erase_of_ne (by simpa using hne)).mpr hmem
    exact h.inv.handed_ne (h.perm.trans (List.perm_cons_erase hn)) _ hother rfl
  simp only [if_neg hpos.ne', hfind, hmod, Option.bind_eq_bind, Option.bind_some] at hrun
  split_ifs at hrun with hsame hlt
  · -- the size is the one it has
    obtain ⟨rfl, rfl⟩ := Prod.mk.inj (Option.some.inj hrun)
    exact ⟨fun _ _ _ ↦ ⟨fun _ _ _ ↦ rfl, fun _ ↦ rfl⟩, fun x _ ↦ SameBytes.refl _ x⟩
  · -- it is cut down where it is
    simp only [Option.bind_eq_some_iff, Option.some.injEq, Prod.mk.injEq] at hrun
    obtain ⟨⟨a, g⟩, -, rfl, rfl⟩ := hrun
    exact ⟨fun _ _ _ ↦ ⟨fun _ _ _ ↦ rfl, fun _ ↦ rfl⟩, fun x _ ↦ SameBytes.refl _ x⟩
  · -- it moves
    simp only [Option.bind_eq_some_iff, Option.some.injEq, Prod.mk.injEq] at hrun
    obtain ⟨⟨s₁, q⟩, halloc, s₂, hfree, rfl, rfl⟩ := hrun
    obtain ⟨hcopied, hframe⟩ :=
      h.moved_contents hpos (hgrow f hfind (by omega)) hf (by omega) halloc hfree
    refine ⟨fun old _ hmem ↦ ?_, hframe⟩
    obtain rfl := hold old hmem
    refine ⟨fun i hlo hhi ↦ hcopied i hlo (lt_of_lt_of_le hhi (min_le_left _ _)), fun hle ↦ ?_⟩
    omega

/-- What one call of a client leaves in memory. -/
theorem contents (h : ClientInv now s live) {op : Op} {time result : ℤ} (hplain : op.Plain live)
    (hsane : op.Sane pl s) (hstep : op.step pl time s = some (s', result)) :
    Contents s live op s' result := by
  cases op with
  | memalloc size blk =>
      obtain ⟨hzero, hframe⟩ := h.memalloc_contents hsane hstep
      refine ⟨?_, by simp, by simp, fun _ ↦ hframe⟩
      rintro size' blk' heq
      obtain ⟨rfl, rfl⟩ := heq
      exact hzero
  | memrealloc ptr size blk =>
      obtain ⟨hkept, hframe⟩ := h.memrealloc_contents hplain hsane hstep
      refine ⟨by simp, ?_, ?_, fun _ ↦ hframe⟩
      · rintro ptr' size' blk' old heq hpos hold
        obtain ⟨rfl, rfl, rfl⟩ := heq
        exact (hkept old hpos hold).1
      · rintro ptr' size' blk' old heq hpos hold hle
        obtain ⟨rfl, rfl, rfl⟩ := heq
        exact (hkept old hpos hold).2 hle
  | memfree ptr =>
      simp only [Op.step, Option.bind_eq_bind, Option.bind_eq_some_iff, Option.some.injEq,
        Prod.mk.injEq] at hstep
      obtain ⟨s₁, hfree, rfl, -⟩ := hstep
      refine ⟨by simp, by simp, by simp, fun _ x _ ↦ ?_⟩
      rw [h.mem_memfree hfree]
      exact SameBytes.refl _ x
  | coalesce =>
      simp only [Op.step, Option.bind_eq_bind, Option.bind_eq_some_iff, Option.some.injEq,
        Prod.mk.injEq] at hstep
      obtain ⟨s₁, hpass, rfl, -⟩ := hstep
      refine ⟨by simp, by simp, by simp, fun _ x _ ↦ ?_⟩
      rw [mem_coalesce hpass]
      exact SameBytes.refl _ x
  | write ptr bytes => exact ⟨by simp, by simp, by simp, fun hne ↦ absurd rfl (hne ptr bytes)⟩
  | memstrdup orig blk => exact hplain.elim
  | memstrlink orig blk => exact hplain.elim
  | memstrnlink orig len blk blk' => exact hplain.elim

end ClientInv

/-- In every state of a run, and for whatever call comes next. -/
theorem clientRun_contents {guard : State → Op → Prop} (hrun : ClientRun pl guard now s live)
    (op : Op) (later : ℤ) (hle : now ≤ later) (hplain : op.Plain live) (hsane : op.Sane pl s) :
    ∃ s' result, op.step pl later s = some (s', result) ∧ Contents s live op s' result := by
  have hinv := hrun.inv.mono hle
  obtain ⟨s', result, hstep, -⟩ := hinv.step hplain hsane
  exact ⟨s', result, hstep, hinv.contents hplain hsane hstep⟩

/-- A buffer of 100 bytes is cut down to 50. -/
theorem clientRun_contents_fifty : ∃ s s' result, memalloc lp64 initial 100 4096 = some (s, 4096) ∧
    memrealloc lp64 s 0 4096 50 8192 = some (s', result) ∧
      Contents s [(4096, 100)] (.memrealloc 4096 50 8192) s' result := by
  obtain ⟨⟨s, p⟩, hs⟩ : ∃ r, memalloc lp64 initial 100 4096 = some r :=
    Option.isSome_iff_exists.mp (by decide +kernel)
  have hfacts : (memalloc lp64 initial 100 4096).any (fun r ↦ r.2 = 4096 ∧
      memoryFragmentFindByAddr r.1.allocator .alloc 4096 = some 0 ∧
      r.1.allocator.size 0 = 100) = true := by decide +kernel
  simp only [hs, Option.any_some, decide_eq_true_eq] at hfacts
  obtain ⟨rfl, hfind, hsize⟩ := hfacts
  have hrun := clientRun_first (fun _ _ ↦ True) (by norm_num) (by decide) trivial hs
  have hsane : (Op.memrealloc 4096 50 8192).Sane lp64 s := by
    refine ⟨fun _ ↦ by decide, by norm_num, fun f hf hlt ↦ ?_⟩
    obtain rfl : 0 = f := by simpa [hfind] using hf
    rw [hsize] at hlt
    norm_num at hlt
  have hplain : (Op.memrealloc 4096 50 8192).Plain [(4096, ((100 : ℕ) : ℤ))] :=
    Or.inr ⟨100, by simp⟩
  obtain ⟨s', result, hstep, hcontents⟩ :=
    clientRun_contents hrun (.memrealloc 4096 50 8192) 0 le_rfl hplain hsane
  exact ⟨s, s', result, hs, hstep, hcontents⟩

end HavokMud.Memory
