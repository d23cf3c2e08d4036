import HavokMud.Memory.Runs
import Mathlib.Algebra.Order.BigOperators.Group.List

/-!
# Clients of the allocator

Clients that intern no strings see the allocator as a set of address ranges: `memalloc` adds one,
`memfree` takes one away, `memrealloc` replaces one and a coalescing pass leaves them alone.  The
list of live ranges is kept beside the state of a run; the fragments in the pool of allocations are
exactly these ranges.
-/

namespace HavokMud.Memory

open BinaryTree BTree SearchTree HavokMud.Interval

/-! ## Runs and what is live in them -/

/-- The calls of clients that intern no strings.  `memrealloc` is for live pointers, and for
`NULL`. -/
def Op.Plain (live : List (ℤ × ℤ)) : Op → Prop
  | .memalloc _ _ | .write _ _ | .coalesce => True
  | .memfree p => 0 ≤ p ∧ p < 2 ^ 64
  | .memrealloc ptr _ _ => ptr = 0 ∨ ∃ n, (ptr, n) ∈ live
  | .memstrdup _ _ | .memstrlink _ _ | .memstrnlink _ _ _ _ => False

/-- The live ranges without the one at `p`. -/
def without (live : List (ℤ × ℤ)) (p : ℤ) : List (ℤ × ℤ) :=
  live.filter (·.1 ≠ p)

/-- The ranges that are live after a call, with the sizes that were asked for. -/
def Op.liveAfter (live : List (ℤ × ℤ)) (result : ℤ) : Op → List (ℤ × ℤ)
  | .memalloc size _ => if size = 0 then live else (result, (size : ℤ)) :: live
  | .memfree p => without live p
  | .memrealloc ptr size _ =>
      if size = 0 then without live ptr else (result, (size : ℤ)) :: without live ptr
  | _ => live

/-- The runs all of whose calls meet `guard`, with the time of the last call and the ranges that are
live. -/
inductive ClientRun (pl : Platform) (guard : State → Op → Prop) :
    ℤ → State → List (ℤ × ℤ) → Prop where
  | start (now : ℤ) : ClientRun pl guard now initial []
  | step {now later : ℤ} {s s' : State} {live : List (ℤ × ℤ)} {op : Op} {result : ℤ}
      (hrun : ClientRun pl guard now s live) (hle : now ≤ later) (hplain : op.Plain live)
      (hguard : guard s op) (hsane : op.Sane pl s)
      (hstep : op.step pl later s = some (s', result)) :
      ClientRun pl guard later s' (op.liveAfter live result)

/-- The sizes of all fragments in the pool of allocations. -/
def allocTotal (s : Allocator) : ℤ :=
  ((handed s).map Prod.snd).sum

/-- The counter shows what is handed out. -/
def Exact (s : Allocator) : Prop :=
  s.memAllocBytes = allocTotal s

/-- The state of a run of clients that intern no strings. -/
structure ClientInv (now : ℤ) (s : State) (live : List (ℤ × ℤ)) : Prop where
  inv : Inv now [] s.allocator
  noStrings : s.stringTree = .nil
  perm : (handed s.allocator).Perm live

variable {pl : Platform} {now : ℤ} {s s' : State} {live : List (ℤ × ℤ)}

/-! ## Facts about what is handed out -/

theorem Inv.handed_inside {a : Allocator} (hinv : Inv now [] a) {x : ℤ × ℤ} (hx : x ∈ handed a) :
    0 < x.1 ∧ 0 < x.2 ∧ x.2 < 2 ^ 31 ∧ x.1 + x.2 ≤ 2 ^ 63 := by
  obtain ⟨f, hf, rfl⟩ := hinv.mem_handed.mp hx
  have hu := hinv.inUse_of_pool hf
  have hin := hinv.inside hu
  have hend := hinv.end_le _ hu.1
  have hord := hinv.ordered hu
  exact ⟨hinv.start_pos_of_inUse hu, hinv.size_pos_of_inUse hu, hord.size_lt, by
    simp only [extent]
    omega⟩

theorem Inv.handed_ne {a : Allocator} (hinv : Inv now [] a) {p n : ℤ} {l : List (ℤ × ℤ)}
    (hperm : (handed a).Perm ((p, n) :: l)) : ∀ x ∈ l, x.1 ≠ p := by
  intro x hx heq
  have hapart := hperm.pairwise hinv.handed_apart (fun h ↦ h.symm)
  have hp := hinv.handed_inside (hperm.mem_iff.mpr (List.mem_cons_self))
  have hx' := hinv.handed_inside (hperm.mem_iff.mpr (List.mem_cons_of_mem _ hx))
  rcases (List.pairwise_cons.mp hapart).1 x hx with h | h <;> simp only at h hp <;> omega

/-- Without the range at `p`, the others are left. -/
theorem Inv.without_perm {a : Allocator} (hinv : Inv now [] a) {p n : ℤ} {l live : List (ℤ × ℤ)}
    (hlive : (handed a).Perm live) (hperm : (handed a).Perm ((p, n) :: l)) :
    l.Perm (without live p) := by
  have hne := hinv.handed_ne hperm
  have hkeep : without ((p, n) :: l) p = l := by
    rw [without, List.filter_cons_of_neg (by simp), List.filter_eq_self]
    exact fun x hx ↦ by simpa using hne x hx
  calc
    l = without ((p, n) :: l) p := hkeep.symm
    List.Perm _ (without live p) := (hperm.symm.trans hlive).filter _

theorem without_eq_self {p : ℤ} (hp : ∀ n, (p, n) ∉ live) : without live p = live := by
  rw [without, List.filter_eq_self]
  intro x hx
  have hne : x.1 ≠ p := by
    rintro rfl
    exact hp x.2 hx
  simpa using hne

/-- The counter has room for all that can be handed out. -/
theorem Inv.allocTotal_le {a : Allocator} (hinv : Inv now [] a) : allocTotal a ≤ 2 ^ 63 := by
  have hsum : allocTotal a ≤ 2 ^ 63 - 0 := sum_le_of_apart hinv.handed_apart
    (fun x hx ↦ (hinv.handed_inside hx).2.1.le)
    (fun x hx ↦ ⟨(hinv.handed_inside hx).1.le, (hinv.handed_inside hx).2.2.2⟩) (by norm_num)
  omega

theorem Inv.allocTotal_nonneg {a : Allocator} (hinv : Inv now [] a) : 0 ≤ allocTotal a := by
  refine List.sum_nonneg fun n hn ↦ ?_
  obtain ⟨x, hx, rfl⟩ := List.mem_map.mp hn
  exact (hinv.handed_inside hx).2.1.le

/-- A counter that is right up to wrap-around is right. -/
theorem Inv.exact_of_mod {a : Allocator} (hinv : Inv now [] a)
    (hbytes : a.memAllocBytes = allocTotal a % 2 ^ 64) : Exact a := by
  have hle := hinv.allocTotal_le
  have hnonneg := hinv.allocTotal_nonneg
  rw [Exact, hbytes, Int.emod_eq_of_lt hnonneg (by omega)]

theorem allocTotal_of_perm {a : Allocator} {l : List (ℤ × ℤ)} (hperm : (handed a).Perm l) :
    allocTotal a = (l.map Prod.snd).sum :=
  (hperm.map Prod.snd).sum_eq

/-- Handing out a piece and counting it. -/
theorem Inv.exact_add {a a' : Allocator} (hinv : Inv now [] a') {p n : ℤ}
    (hperm : (handed a').Perm ((p, n) :: handed a))
    (hbytes : a'.memAllocBytes = (a.memAllocBytes + n) % 2 ^ 64) (hexact : Exact a) : Exact a' := by
  refine hinv.exact_of_mod ?_
  rw [hbytes, hexact, allocTotal_of_perm hperm, List.map_cons, List.sum_cons, add_comm]
  rfl

/-- Taking a piece back and counting it. -/
theorem Inv.exact_sub {a a' : Allocator} (hinv : Inv now [] a') {p n : ℤ}
    (hperm : (handed a).Perm ((p, n) :: handed a'))
    (hbytes : a'.memAllocBytes = (a.memAllocBytes - n) % 2 ^ 64) (hexact : Exact a) : Exact a' := by
  refine hinv.exact_of_mod ?_
  rw [hbytes, hexact, allocTotal_of_perm hperm, List.map_cons, List.sum_cons, add_sub_cancel_left]
  rfl

/-! ## One call -/

/-- The state before a call and the one after it, with what is live then. -/
structure Served (now : ℤ) (s s' : State) (live' : List (ℤ × ℤ)) : Prop where
  after : ClientInv now s' live'
  kept : BlocksKept s.allocator s'.allocator

namespace ClientInv

theorem memalloc (h : ClientInv now s live) {size : ℕ} {blk : ℤ} (hpos : 0 < size)
    (hserves : Serves pl s size blk) :
    ∃ s' p, Memory.memalloc pl s size blk = some (s', p) ∧
      Served now s s' ((p, (size : ℤ)) :: live) ∧ (Exact s.allocator → Exact s'.allocator) := by
  obtain ⟨hfits, hfresh⟩ := hserves hpos
  obtain ⟨a, p, hrun, hinv, hperm, hkept, hbytes⟩ := h.inv.memalloc pl hpos hfits hfresh
  refine ⟨{ s with allocator := a, mem := memset s.mem p 0 size }, p,
    memalloc_eq_some.mpr ⟨a, hrun, rfl⟩, ⟨⟨hinv, h.noStrings, hperm.trans (h.perm.cons _)⟩, hkept⟩,
    hinv.exact_add hperm hbytes⟩

/-- With no interned string `memfree` looks for the fragment at once. -/
theorem memfree_eq (h : ClientInv now s live) (time p : ℤ) :
    Memory.memfree pl s time p =
      (s.allocator.memfree p time).map fun a ↦ { s with allocator := a } := by
  have hfind : ∀ text, s.findString pl text = none := fun text ↦ by
    simp [State.findString, h.noStrings, treeFind, find]
  simp only [Memory.memfree, memfreeLoop, hfind, ite_self]
  cases s.allocator.memfree p time <;> rfl

theorem memfree (h : ClientInv now s live) (pl : Platform) {p : ℤ} (hnonneg : 0 ≤ p)
    (hlt : p < 2 ^ 64) :
    ∃ s', Memory.memfree pl s now p = some s' ∧ Served now s s' (without live p) ∧
      (Exact s.allocator → Exact s'.allocator) := by
  rw [h.memfree_eq]
  by_cases hp : ∃ n, (p, n) ∈ handed s.allocator
  · obtain ⟨n, hn⟩ := hp
    obtain ⟨a, hrun, hinv, hperm, hkept, hbytes⟩ := h.inv.memfree hn
    exact ⟨{ s with allocator := a }, by rw [hrun]; rfl,
      ⟨⟨hinv, h.noStrings, h.inv.without_perm h.perm hperm⟩, hkept⟩, hinv.exact_sub hperm hbytes⟩
  · rw [not_exists] at hp
    refine ⟨s, by rw [h.inv.memfree_unknown hnonneg hlt hp]; rfl, ⟨⟨h.inv, h.noStrings, ?_⟩,
      BlocksKept.refl _⟩, id⟩
    rw [without_eq_self fun n hn ↦ hp n (h.perm.mem_iff.mpr hn)]
    exact h.perm

/-- What `memrealloc` finds at a live pointer. -/
theorem find_live (h : ClientInv now s live) {p n : ℤ} (hp : (p, n) ∈ live) :
    ∃ f, memoryFragmentFindByAddr s.allocator .alloc p = some f ∧
      (s.allocator.frags f).pool = some .alloc ∧ extent s.allocator f = (p, n) := by
  obtain ⟨f, hf, hextent⟩ := h.inv.mem_handed.mp (h.perm.mem_iff.mpr hp)
  have hu := h.inv.inUse_of_pool hf
  have hstart : s.allocator.start f = p := congrArg Prod.fst hextent
  refine ⟨f, ?_, hf, hextent⟩
  rw [← hstart]
  exact ((h.inv.index .alloc).findByAddr_iff h.inv.ordered_of_pool (h.inv.start_pos_of_inUse hu)
    (h.inv.ordered hu).start_lt).mpr ⟨hf, rfl⟩

end ClientInv

/-- The call makes a live buffer smaller. -/
def Op.Shrinks (s : State) : Op → Prop
  | .memrealloc ptr size _ => 0 < size ∧
      ∃ f, memoryFragmentFindByAddr s.allocator .alloc ptr = some f ∧ size < s.allocator.size f
  | _ => False

namespace ClientInv

/-- The fragment at a live pointer, cut down in place. -/
theorem shrink (h : ClientInv now s live) {size f : ℕ} (hpos : 0 < size) (hfits : Fits pl size)
    (hf : (s.allocator.frags f).pool = some .alloc) (hlt : size < s.allocator.size f) :
    ∃ a, memoryFragmentSplit pl s.allocator f (toInt size) = some (a, some f) ∧
      Served now s { s with allocator := a }
        ((s.allocator.start f, (size : ℤ)) :: without live (s.allocator.start f)) := by
  obtain ⟨a, hsplit, hinv, hbeside, hpool, hsize, hstart⟩ :=
    h.inv.split pl hf (by omega : (0 : ℤ) < size) hlt.le
  refine ⟨a, by rw [hfits.toInt_eq]; exact hsplit, ⟨hinv, h.noStrings, ?_⟩, hbeside.blocksKept⟩
  calc
    List.Perm (handed a) (extent a f :: handedBut a f) := hinv.handed_perm hpool
    List.Perm _ (extent a f :: handedBut s.allocator f) :=
      (hbeside.handedBut_perm h.inv hinv).cons _
    List.Perm _ (extent a f :: without live (s.allocator.start f)) :=
      (h.inv.without_perm h.perm (h.inv.handed_perm hf)).cons _
    _ = (s.allocator.start f, (size : ℤ)) :: without live (s.allocator.start f) := by
      rw [extent, hstart, hsize]

/-- A live buffer moved to a bigger one. -/
theorem grow (h : ClientInv now s live) {size : ℕ} {blk p n : ℤ} (hpos : 0 < size)
    (hserves : Serves pl s size blk) (hp : (p, n) ∈ live) (count : State → ℤ) :
    ∃ s₁ q s', Memory.memalloc pl s size blk = some (s₁, q) ∧
      Memory.memfree pl { s₁ with mem := memcpy s₁.mem q p (count s₁) } now p = some s' ∧
      Served now s s' ((q, (size : ℤ)) :: without live p) ∧
      (Exact s.allocator → Exact s'.allocator) := by
  obtain ⟨s₁, q, halloc, ⟨h₁, hkept₁⟩, hexact₁⟩ := h.memalloc hpos hserves
  have hin := h.inv.handed_inside (h.perm.mem_iff.mpr hp)
  simp only at hin
  have h₂ : ClientInv now { s₁ with mem := memcpy s₁.mem q p (count s₁) }
      ((q, (size : ℤ)) :: live) := ⟨h₁.inv, h₁.noStrings, h₁.perm⟩
  obtain ⟨s', hfree, ⟨h₃, hkept₃⟩, hexact₃⟩ := h₂.memfree pl (by omega : 0 ≤ p) (by omega)
  have hne : q ≠ p := fun heq ↦ h₁.inv.handed_ne h₁.perm _ hp heq.symm
  have hlive : without ((q, (size : ℤ)) :: live) p = (q, (size : ℤ)) :: without live p :=
    List.filter_cons_of_pos (by simpa using hne)
  exact ⟨s₁, q, s', halloc, hfree, ⟨hlive ▸ h₃, hkept₁.trans hkept₃⟩, fun he ↦ hexact₃ (hexact₁ he)⟩

theorem memrealloc_null (h : ClientInv now s live) {size : ℕ} {blk : ℤ}
    (hserves : Serves pl s size blk) :
    ∃ s' p, Memory.memrealloc pl s now 0 size blk = some (s', p) ∧
      Served now s s' ((Op.memrealloc 0 size blk).liveAfter live p) ∧
      (Exact s.allocator → Exact s'.allocator) := by
  have hzero : without live 0 = live :=
    without_eq_self fun n hn ↦ absurd (h.inv.handed_inside (h.perm.mem_iff.mpr hn)).1 (lt_irrefl _)
  rcases Nat.eq_zero_or_pos size with rfl | hpos
  · refine ⟨s, 0, by simp [Memory.memrealloc, Memory.memalloc, Allocator.memalloc], ?_, id⟩
    rw [Op.liveAfter, if_pos rfl, hzero]
    exact ⟨h, BlocksKept.refl _⟩
  · obtain ⟨s', p, hrun, hserved, hexact⟩ := h.memalloc hpos hserves
    refine ⟨s', p, by simpa [Memory.memrealloc] using hrun, ?_, hexact⟩
    rw [Op.liveAfter, if_neg hpos.ne', hzero]
    exact hserved

theorem memrealloc (h : ClientInv now s live) {ptr blk : ℤ} {size : ℕ}
    (hplain : (Op.memrealloc ptr size blk).Plain live)
    (hsane : (Op.memrealloc ptr size blk).Sane pl s) :
    ∃ s' p, Memory.memrealloc pl s now ptr size blk = some (s', p) ∧
      Served now s s' ((Op.memrealloc ptr size blk).liveAfter live p) ∧
      (¬ (Op.memrealloc ptr size blk).Shrinks s → Exact s.allocator → Exact s'.allocator) := by
  obtain ⟨hfits, hnull, hgrow⟩ := hsane
  rcases hplain with rfl | ⟨n, hn⟩
  · obtain ⟨s', p, hrun, hserved, hexact⟩ := h.memrealloc_null (hnull rfl)
    exact ⟨s', p, hrun, hserved, fun _ ↦ hexact⟩
  have hin := h.inv.handed_inside (h.perm.mem_iff.mpr hn)
  simp only at hin
  have hptr : ptr ≠ 0 := by omega
  simp only [Memory.memrealloc, if_neg hptr, Op.liveAfter]
  rcases Nat.eq_zero_or_pos size with rfl | hpos
  · obtain ⟨s', hrun, hserved, hexact⟩ := h.memfree pl (by omega : 0 ≤ ptr) (by omega)
    exact ⟨s', 0, by simp [hrun], by simpa using hserved, fun _ ↦ hexact⟩
  obtain ⟨f, hfind, hf, hextent⟩ := h.find_live hn
  obtain ⟨rfl, rfl⟩ := Prod.mk.inj hextent
  have hmod : s.allocator.size f % 2 ^ 64 = s.allocator.size f :=
      Int.emod_eq_of_lt (by omega) (by omega)
  simp only [if_neg hpos.ne', hfind, hmod, Option.bind_eq_bind, Option.bind_some]
  by_cases hsame : s.allocator.size f = size
  · refine ⟨s, s.allocator.start f, if_pos hsame, ⟨⟨h.inv, h.noStrings, ?_⟩, BlocksKept.refl _⟩,
      fun _ ↦ id⟩
    rw [← hsame]
    exact h.perm.trans (List.perm_cons_erase hn |>.trans (h.inv.without_perm h.perm
      (h.perm.trans (List.perm_cons_erase hn)) |>.cons _))
  rw [if_neg hsame]
  by_cases hlt : size < s.allocator.size f
  · obtain ⟨a, hsplit, hserved⟩ := h.shrink hpos (hfits hpos) hf hlt
    refine ⟨_, s.allocator.start f, by rw [if_pos hlt, hsplit]; rfl, hserved, fun hshrinks ↦ ?_⟩
    exact absurd ⟨hpos, f, hfind, hlt⟩ hshrinks
  · obtain ⟨s₁, q, s', halloc, hfree, hserved, hexact⟩ :=
      h.grow hpos (hgrow f hfind (by omega)) hn fun s₁ ↦ s₁.allocator.size f
    refine ⟨s', q, ?_, hserved, fun _ ↦ hexact⟩
    rw [if_neg hlt, halloc, Option.bind_some, hfree]
    rfl

theorem mono (h : ClientInv now s live) {later : ℤ} (hle : now ≤ later) : ClientInv later s live :=
  ⟨h.inv.mono hle, h.noStrings, h.perm⟩

theorem coalesce (h : ClientInv now s live) :
    ∃ s', Memory.coalesce s now = some s' ∧ ClientInv now s' live ∧
      Sweeps now s.allocator s'.allocator ∧ (Exact s.allocator → Exact s'.allocator) := by
  obtain ⟨a, hpass, hinv, hsweep, -⟩ := h.inv.coalescePass now
  have hhanded := hsweep.handed_eq hinv
  refine ⟨{ s with allocator := a }, by simp [Memory.coalesce, hpass],
    ⟨hinv, h.noStrings, by rw [hhanded]; exact h.perm⟩, hsweep, fun hexact ↦ ?_⟩
  rw [Exact, allocTotal, hhanded, hsweep.bytes]
  exact hexact

end ClientInv

/-- No block that is given back in a call meets a live range. -/
def ReleasesApart (s s' : Allocator) (live : List (ℤ × ℤ)) : Prop :=
  ∀ b ∈ s.blockUsedList, b ∉ s'.blockUsedList →
    ∀ x ∈ live, Apart x.1 x.2 (s.blocks b).start (s.blocks b).size

theorem BlocksKept.releasesApart {a a' : Allocator} (hkept : BlocksKept a a') :
    ReleasesApart a a' live :=
  fun b hb hgone ↦ absurd (hkept.used b hb) hgone

/-- Every call a client may make succeeds and keeps the account of what is live. -/
theorem ClientInv.step (h : ClientInv now s live) {op : Op} (hplain : op.Plain live)
    (hsane : op.Sane pl s) :
    ∃ s' result, op.step pl now s = some (s', result) ∧
      ClientInv now s' (op.liveAfter live result) ∧ ReleasesApart s.allocator s'.allocator live ∧
      (¬ op.Shrinks s → Exact s.allocator → Exact s'.allocator) := by
  cases op with
  | memalloc size blk =>
      rcases Nat.eq_zero_or_pos size with rfl | hpos
      · exact ⟨s, 0, by simp [Op.step, Memory.memalloc, Allocator.memalloc],
          by simpa [Op.liveAfter] using h, (BlocksKept.refl _).releasesApart, fun _ ↦ id⟩
      · obtain ⟨s', p, hrun, hserved, hexact⟩ := h.memalloc hpos hsane
        exact ⟨s', p, hrun, by simpa [Op.liveAfter, hpos.ne'] using hserved.after,
          hserved.kept.releasesApart, fun _ ↦ hexact⟩
  | memfree p =>
      obtain ⟨s', hrun, hserved, hexact⟩ := h.memfree pl hplain.1 hplain.2
      exact ⟨s', 0, by simp [Op.step, hrun], hserved.after, hserved.kept.releasesApart,
        fun _ ↦ hexact⟩
  | memrealloc ptr size blk =>
      obtain ⟨s', p, hrun, hserved, hexact⟩ := h.memrealloc hplain hsane
      exact ⟨s', p, hrun, hserved.after, hserved.kept.releasesApart, hexact⟩
  | write p bytes =>
      exact ⟨_, 0, rfl, ⟨h.inv, h.noStrings, h.perm⟩, (BlocksKept.refl _).releasesApart, fun _ ↦ id⟩
  | coalesce =>
      obtain ⟨s', hrun, hafter, hsweep, hexact⟩ := h.coalesce
      exact ⟨s', 0, by simp [Op.step, hrun], hafter,
        fun b hb hgone x hx ↦ hsweep.released_apart h.inv hb hgone (h.perm.mem_iff.mpr hx),
        fun _ ↦ hexact⟩
  | memstrdup orig blk => exact hplain.elim
  | memstrlink orig blk => exact hplain.elim
  | memstrnlink orig len blk blk' => exact hplain.elim

/-! ## Whole runs -/

variable {guard : State → Op → Prop}

theorem ClientRun.inv (hrun : ClientRun pl guard now s live) : ClientInv now s live := by
  induction hrun with
  | start now => exact ⟨inv_meminit now, rfl, List.Perm.nil⟩
  | step hrun hle hplain hguard hsane hstep ih =>
      obtain ⟨s', result, hstep', hafter, -⟩ := (ih.mono hle).step hplain hsane
      obtain ⟨rfl, rfl⟩ := Prod.mk.inj (Option.some.inj (hstep'.symm.trans hstep))
      exact hafter

/-- The fragments an address tree holds. -/
def addrIndex (s : Allocator) (pool : Pool) : List ℕ :=
  inorder (s.pools pool).addrTree

/-- The fragments the trees of a size tree hold. -/
def sizeIndex (s : Allocator) (pool : Pool) : List ℕ :=
  (inorder (s.pools pool).sizeTree).flatMap fun k ↦ inorder ((s.pools pool).sizeItem k)

theorem Indexes.mem_sizeIndex {a : Allocator} {pool : Pool} (hidx : Indexes a pool) {f : ℕ} :
    f ∈ sizeIndex a pool ↔ (a.frags f).pool = some pool := by
  rw [sizeIndex, List.mem_flatMap]
  constructor
  · rintro ⟨k, hk, hf⟩
    exact ((hidx.item_mem k hk f).mp hf).1
  · intro hf
    have hk := hidx.size_cover f hf
    exact ⟨a.size f, hk, (hidx.item_mem _ hk f).mpr ⟨hf, rfl⟩⟩

theorem Indexes.nodup_sizeIndex {a : Allocator} {pool : Pool} (hidx : Indexes a pool) :
    (sizeIndex a pool).Nodup := by
  rw [sizeIndex, List.nodup_flatMap]
  refine ⟨fun k hk ↦ (hidx.item_sorted k hk).nodup, hidx.size_sorted.nodup.imp_of_mem ?_⟩
  intro k k' hk hk' hne f hf hf'
  exact hne (((hidx.item_mem k hk f).mp hf).2.symm.trans ((hidx.item_mem k' hk' f).mp hf').2)

/-- The fragments of every block tile it, every fragment is indexed once by size and once by address
in the pool it names and in no other, and the live ranges are apart and served by fragments at least
as long. -/
structure Safe (s : Allocator) (live : List (ℤ × ℤ)) : Prop where
  tiles : ∀ b ∈ s.blockUsedList,
    Tiles s.start s.size (s.blocks b).fragmentList (s.blocks b).start (s.blocks b).size
  indexed : ∀ f, InUse s f → ∃ pool, (s.frags f).pool = some pool ∧ ∀ pool',
    (sizeIndex s pool').count f = (if pool' = pool then 1 else 0) ∧
      (addrIndex s pool').count f = if pool' = pool then 1 else 0
  apart : live.Pairwise fun x y ↦ Apart x.1 x.2 y.1 y.2
  served : ∀ x ∈ live, ∃ f, (s.frags f).pool = some .alloc ∧ s.start f = x.1 ∧ x.2 ≤ s.size f

theorem ClientInv.safe (h : ClientInv now s live) : Safe s.allocator live where
  tiles := h.inv.tiles
  indexed f hf := by
    obtain ⟨pool, hpool⟩ : ∃ pool, (s.allocator.frags f).pool = some pool :=
      Option.ne_none_iff_exists'.mp (by simpa using (h.inv.member f).mp hf)
    refine ⟨pool, hpool, fun pool' ↦ ?_⟩
    have hidx := h.inv.index pool'
    rw [hidx.nodup_sizeIndex.count, addrIndex, hidx.addr_sorted.nodup.count]
    simp only [hidx.mem_sizeIndex, hidx.addr_mem, hpool, Option.some.injEq, eq_comm, and_self]
  apart := h.perm.pairwise h.inv.handed_apart fun hxy ↦ hxy.symm
  served x hx := by
    obtain ⟨f, hf, rfl⟩ := h.inv.mem_handed.mp (h.perm.mem_iff.mpr hx)
    exact ⟨f, hf, rfl, le_rfl⟩

/-- In every state of a run, and for whatever call comes next, the allocator is safe. -/
theorem clientRun_safe (hrun : ClientRun pl guard now s live) :
    Safe s.allocator live ∧ ∀ (op : Op) (later : ℤ), now ≤ later → op.Plain live → op.Sane pl s →
      ∃ s' result, op.step pl later s = some (s', result) ∧
        ReleasesApart s.allocator s'.allocator live := by
  refine ⟨hrun.inv.safe, fun op later hle hplain hsane ↦ ?_⟩
  obtain ⟨s', result, hstep, -, hreleases, -⟩ := (hrun.inv.mono hle).step hplain hsane
  exact ⟨s', result, hstep, hreleases⟩

/-- The first call of a run, with the first block at address `4096`. -/
theorem clientRun_first (guard : State → Op → Prop) {size : ℕ} {p : ℤ} (hpos : 0 < size)
    (hfits : Fits lp64 size) (hguard : guard initial (.memalloc size 4096))
    (hrun : memalloc lp64 initial size 4096 = some (s, p)) :
    ClientRun lp64 guard 0 s [(p, (size : ℤ))] := by
  have hsane : (Op.memalloc size 4096).Sane lp64 initial := by
    refine fun _ ↦ ⟨hfits, fun _ _ ↦ ?_⟩
    have hlt : roundUp lp64 size < 2 ^ 31 := hfits
    rw [hfits.pageRequest_eq]
    exact ⟨by norm_num, by omega, by simp [initial, meminit]⟩
  have hplain : (Op.memalloc size 4096).Plain [] := trivial
  have hstep := (ClientRun.start 0).step le_rfl hplain hguard hsane hrun
  rwa [Op.liveAfter, if_neg hpos.ne'] at hstep

/-- A client asks for 100 bytes. -/
theorem clientRun_safe_hundred : ∃ s, memalloc lp64 initial 100 4096 = some (s, 4096) ∧
    Safe s.allocator [(4096, 100)] := by
  obtain ⟨⟨s, p⟩, hs⟩ : ∃ r, memalloc lp64 initial 100 4096 = some r :=
    Option.isSome_iff_exists.mp (by decide +kernel)
  have hp : (memalloc lp64 initial 100 4096).map Prod.snd = some 4096 := by decide +kernel
  obtain rfl : p = 4096 := by simpa [hs] using hp
  exact ⟨s, hs, (clientRun_safe
    (clientRun_first (fun _ _ ↦ True) (by norm_num) (by decide) trivial hs)).1⟩

theorem ClientRun.exact (hrun : ClientRun pl (fun s op ↦ ¬ op.Shrinks s) now s live) :
    Exact s.allocator := by
  induction hrun with
  | start now => rfl
  | step hrun hle hplain hguard hsane hstep ih =>
      obtain ⟨s', result, hstep', -, -, hexact⟩ := (hrun.inv.mono hle).step hplain hsane
      obtain ⟨rfl, rfl⟩ := Prod.mk.inj (Option.some.inj (hstep'.symm.trans hstep))
      exact hexact hguard ih

/-- In every run in which `memrealloc` makes no buffer smaller, `memAllocBytes` is the sum of the
sizes in the pool of allocations, and no size that is to be subtracted exceeds it. -/
theorem memAllocBytes_exact (hrun : ClientRun pl (fun s op ↦ ¬ op.Shrinks s) now s live) :
    s.allocator.memAllocBytes = allocTotal s.allocator ∧
      ∀ f, (s.allocator.frags f).pool = some .alloc →
        s.allocator.size f ≤ s.allocator.memAllocBytes := by
  have hexact := hrun.exact
  refine ⟨hexact, fun f hf ↦ ?_⟩
  have hinv := hrun.inv.inv
  rw [hexact]
  refine List.single_le_sum (fun n hn ↦ ?_) _ (List.mem_map.mpr
    ⟨extent s.allocator f, hinv.mem_handed.mpr ⟨f, hf, rfl⟩, rfl⟩)
  obtain ⟨x, hx, rfl⟩ := List.mem_map.mp hn
  exact (hinv.handed_inside hx).2.1.le

/-- A client asks for 100 bytes. -/
theorem memAllocBytes_exact_hundred : ∃ s, memalloc lp64 initial 100 4096 = some (s, 4096) ∧
    s.allocator.memAllocBytes = allocTotal s.allocator := by
  obtain ⟨⟨s, p⟩, hs⟩ : ∃ r, memalloc lp64 initial 100 4096 = some r :=
    Option.isSome_iff_exists.mp (by decide +kernel)
  have hp : (memalloc lp64 initial 100 4096).map Prod.snd = some 4096 := by decide +kernel
  obtain rfl : p = 4096 := by simpa [hs] using hp
  exact ⟨s, hs, (memAllocBytes_exact
    (clientRun_first _ (by norm_num) (by decide) (fun h ↦ h) hs)).1⟩

/-- Cutting a buffer of 100 bytes down to 50 leaves the counter at 100. -/
theorem memAllocBytes_shrunk : ∃ s, ClientRun lp64 (fun _ _ ↦ True) 0 s [(4096, 50)] ∧
    s.allocator.memAllocBytes = 100 ∧ allocTotal s.allocator = 50 := by
  obtain ⟨⟨s, p⟩, hs⟩ : ∃ r, memalloc lp64 initial 100 4096 = some r :=
    Option.isSome_iff_exists.mp (by decide +kernel)
  have hfacts : (memalloc lp64 initial 100 4096).any (fun r ↦ r.2 = 4096 ∧
      memoryFragmentFindByAddr r.1.allocator .alloc 4096 = some 0 ∧
      r.1.allocator.size 0 = 100) = true := by decide +kernel
  simp only [hs, Option.any_some, decide_eq_true_eq] at hfacts
  obtain ⟨rfl, hfind, hsize⟩ := hfacts
  have hrun := clientRun_first (fun _ _ ↦ True) (by norm_num) (by decide) trivial hs
  have hsane : (Op.memrealloc 4096 50 8192).Sane lp64 s := by
    refine ⟨fun _ ↦ by decide, by norm_num, fun f hf hlt ↦ ?_⟩
    obtain rfl : 0 = f := by simpa [hfind] using hf
    rw [hsize] at hlt
    norm_num at hlt
  have hafter : ((memalloc lp64 initial 100 4096).bind fun r ↦
      memrealloc lp64 r.1 0 4096 50 8192).any (fun r ↦ r.2 = 4096 ∧
        r.1.allocator.memAllocBytes = 100 ∧ allocTotal r.1.allocator = 50) = true := by
    decide +kernel
  obtain ⟨⟨s', q⟩, hs'⟩ : ∃ r, memrealloc lp64 s 0 4096 50 8192 = some r := by
    rw [hs, Option.bind_some] at hafter
    cases hr : memrealloc lp64 s 0 4096 50 8192 with
    | none => simp [hr] at hafter
    | some r => exact ⟨r, rfl⟩
  simp only [hs, Option.bind_some, hs', Option.any_some, decide_eq_true_eq] at hafter
  obtain ⟨rfl, hbytes, htotal⟩ := hafter
  have hplain : (Op.memrealloc 4096 50 8192).Plain [(4096, ((100 : ℕ) : ℤ))] :=
      Or.inr ⟨100, by simp⟩
  exact ⟨s', hrun.step le_rfl hplain trivial hsane hs', hbytes, htotal⟩

end HavokMud.Memory
