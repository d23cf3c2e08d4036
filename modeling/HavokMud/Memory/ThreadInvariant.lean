import HavokMud.Interval.Ledger
import HavokMud.Memory.Clients
import HavokMud.Memory.Threads

/-!
# The invariant of all threads

A thread picks a fragment under the mutexes of a pool and takes it out of the pool in a later step.
As long as no search returns a fragment that another thread has picked and is not yet done with,
every fragment is in the hands of one thread at most.  The invariant says what a thread knows at
each place in the code about what it has in hand; a step of one thread leaves what the others know
alone.
-/

namespace HavokMud.Memory

open BinaryTree BTree SearchTree HavokMud.Interval Records

/-! ## What a thread has in hand -/

/-- The old fragment of a buffer that grows. -/
def Job.fragments : Job → List ℕ
  | .memalloc => []
  | .grow _ old => [old]

def Origin.fragments : Origin → List ℕ
  | .pool _ job | .fresh job => job.fragments
  | .shrink _ => []

/-- The fragments a thread has pointers to. -/
def PC.fragments : PC → List ℕ
  | .idle => []
  | .select _ _ job | .malloc _ job | .getBlock _ _ job | .initBlock _ _ _ _ job
  | .getFragment _ _ _ job => job.fragments
  | .initFragment _ _ f _ _ job | .linkFragment _ f _ job => f :: job.fragments
  | .checkSize f _ origin | .checkPool f _ origin | .loadPool f _ origin | .remove f _ _ origin
  | .checkWhole f _ origin | .getRemainder f _ origin | .addFragment f _ origin
  | .finish f _ origin => f :: origin.fragments
  | .initRemainder f remainder _ _ origin | .linkRemainder f remainder _ origin
  | .cutEnd f remainder _ origin | .cutSize f remainder _ origin
  | .addRemainder f remainder _ origin => f :: remainder :: origin.fragments
  | .compareSame f _ _ | .compareMore f _ _ | .freeFind _ f | .freeRemove f | .freeStamp f
  | .freeAdd f => [f]

/-- The fragment of a buffer that shrinks stays in the hands of its client. -/
def Origin.kept (f : ℕ) : Origin → List ℕ
  | .pool _ job | .fresh job => job.fragments
  | .shrink _ => [f]

/-- The fragments in hand that are at the same time in the hands of a client. -/
def PC.kept : PC → List ℕ
  | .select _ _ job | .malloc _ job | .getBlock _ _ job | .initBlock _ _ _ _ job
  | .getFragment _ _ _ job | .initFragment _ _ _ _ _ job | .linkFragment _ _ _ job => job.fragments
  | .checkSize f _ origin | .checkPool f _ origin | .loadPool f _ origin | .remove f _ _ origin
  | .checkWhole f _ origin | .getRemainder f _ origin | .addFragment f _ origin
  | .finish f _ origin | .initRemainder f _ _ _ origin | .linkRemainder f _ _ origin
  | .cutEnd f _ _ origin | .cutSize f _ _ origin | .addRemainder f _ _ origin => origin.kept f
  | .compareSame f _ _ | .compareMore f _ _ | .freeFind _ f => [f]
  | .idle | .freeRemove _ | .freeStamp _ | .freeAdd _ => []

theorem Origin.mem_of_kept {f g : ℕ} {origin : Origin} (hg : g ∈ origin.kept f) :
    g = f ∨ g ∈ origin.fragments := by
  cases origin with
  | pool p job => exact Or.inr hg
  | fresh job => exact Or.inr hg
  | shrink ptr => exact Or.inl (List.mem_singleton.mp hg)

theorem PC.mem_fragments_of_kept (pc : PC) {g : ℕ} (hg : g ∈ pc.kept) : g ∈ pc.fragments := by
  cases pc <;> simp only [PC.kept, PC.fragments, List.mem_cons] at hg ⊢ <;>
    first
      | exact hg
      | exact Or.inr hg
      | exact Origin.mem_of_kept hg
      | exact (Origin.mem_of_kept hg).imp_right Or.inr

/-- The fragment the search of a step returns. -/
def World.lookup (w : World) (t : ℕ) : Event → Option ℕ
  | .memalloc _ => none
  | .memfree p | .memrealloc p _ => memoryFragmentFindByAddr w.s .alloc p
  | .advance _ =>
      match w.pc t with
      | .select pool size _ => w.found pool size
      | .freeFind ptr _ => memoryFragmentFindByAddr w.s .alloc ptr
      | _ => none

/-- No search returns a fragment another thread is not done with. -/
def Unshared (w : World) (t : ℕ) (event : Event) : Prop :=
  ∀ f, w.lookup t event = some f → ∀ t', t' ≠ t → f ∉ (w.pc t').fragments

/-- The size a thread is about to get a block for. -/
def PC.mallocs : PC → Option ℕ
  | .malloc size _ => some size
  | _ => none

/-- What a step relies on: addresses are addresses, sizes fit, and `malloc` returns a region apart
from all it has returned before. -/
def World.Sane (pl : Platform) (w : World) (t : ℕ) : Event → Prop
  | .memalloc size => Fits pl size
  | .memfree p => 0 ≤ p ∧ p < 2 ^ 64
  | .memrealloc ptr size => 0 ≤ ptr ∧ ptr < 2 ^ 64 ∧ Fits pl size
  | .advance input => ∀ size, size ∈ (w.pc t).mallocs → 0 < input ∧
      input + pageRequest pl size ≤ 2 ^ 63 ∧
      ∀ r ∈ w.regions, Apart input (pageRequest pl size) r.1 r.2

instance (pl : Platform) (w : World) (t : ℕ) : (event : Event) → Decidable (w.Sane pl t event)
  | .memalloc size => inferInstanceAs (Decidable (Fits pl size))
  | .memfree _ => inferInstanceAs (Decidable (_ ∧ _))
  | .memrealloc _ _ => inferInstanceAs (Decidable (_ ∧ _ ∧ _))
  | .advance _ => inferInstanceAs (Decidable (∀ size, size ∈ (w.pc t).mallocs → _))

/-- The states any interleaving of steps that meet `guard` can reach. -/
inductive ThreadRun (pl : Platform) (guard : World → ℕ → Event → Prop) : World → Prop where
  | start : ThreadRun pl guard World.initial
  | step {w w' : World} {t : ℕ} {event : Event} (hrun : ThreadRun pl guard w)
      (hguard : guard w t event) (hsane : w.Sane pl t event)
      (hstep : w.step pl t event = some w') : ThreadRun pl guard w'

/-! ## The invariant -/

/-- Addresses belong to fragments, and to threads on their way to make a fragment of a block. -/
inductive Owner where
  | fragment (f : ℕ)
  | thread (t : ℕ)
deriving DecidableEq

/-- The fragment is out of its pool and what it covers is on the ledger. -/
def Held (s : Allocator) (place : Owner → Option (ℤ × ℤ)) (f : ℕ) : Prop :=
  (s.frags f).pool = none ∧ place (.fragment f) = some (extent s f)

/-- A size `memalloc` can serve. -/
def Wanted (pl : Platform) (size : ℕ) : Prop :=
  0 < size ∧ Fits pl size

def Job.Ok (s : Allocator) : Job → Prop
  | .memalloc => True
  | .grow ptr old => (s.frags old).pool = some .alloc ∧ s.start old = ptr

def Origin.Ok (s : Allocator) (f : ℕ) : Origin → Prop
  | .pool _ job | .fresh job => job.Ok s
  | .shrink ptr => s.start f = ptr

/-- What `memoryFragmentSplit` is called with. -/
def Origin.Before (s : Allocator) (place : Owner → Option (ℤ × ℤ)) (f : ℕ) : Origin → Prop
  | .pool p _ => (s.frags f).pool = some p
  | .fresh _ => Held s place f
  | .shrink _ => (s.frags f).pool = some .alloc

/-- What a thread knows where it is. -/
def PC.Ok (pl : Platform) (s : Allocator) (place : Owner → Option (ℤ × ℤ)) (t : ℕ) : PC → Prop
  | .idle => True
  | .select pool size job => Wanted pl size ∧ job.Ok s ∧ pool ≠ .alloc
  | .malloc size job => Wanted pl size ∧ job.Ok s
  | .getBlock blk size job | .initBlock blk _ _ size job | .getFragment blk _ size job =>
      Wanted pl size ∧ job.Ok s ∧ place (.thread t) = some (blk, (roundUp pl size : ℤ))
  | .initFragment blk b f stage size job =>
      Wanted pl size ∧ job.Ok s ∧ place (.thread t) = some (blk, (roundUp pl size : ℤ)) ∧
        (s.frags f).pool = none ∧
        ((fragmentWrites (wholeBlock b blk (roundUp pl size))).drop stage).foldl
          (fun fragment write ↦ write fragment) (s.frags f) = wholeBlock b blk (roundUp pl size)
  | .linkFragment _ f size job => Wanted pl size ∧ job.Ok s ∧ Held s place f ∧ size ≤ s.size f
  | .checkSize f size origin | .checkPool f size origin =>
      Wanted pl size ∧ origin.Ok s f ∧ origin.Before s place f ∧ size ≤ s.size f
  | .loadPool f size origin =>
      Wanted pl size ∧ origin.Ok s f ∧ (s.frags f).pool ≠ none ∧ size ≤ s.size f
  | .remove f pool size origin =>
      Wanted pl size ∧ origin.Ok s f ∧ (s.frags f).pool = pool ∧ pool ≠ none ∧ size ≤ s.size f
  | .checkWhole f size origin =>
      Wanted pl size ∧ origin.Ok s f ∧ Held s place f ∧ size ≤ s.size f
  | .getRemainder f size origin =>
      Wanted pl size ∧ origin.Ok s f ∧ Held s place f ∧ size < s.size f
  | .initRemainder f remainder stage size origin =>
      Wanted pl size ∧ origin.Ok s f ∧ Held s place f ∧ size < s.size f ∧
        (s.frags remainder).pool = none ∧
        ((fragmentWrites (remainderOf s f size)).drop stage).foldl
          (fun fragment write ↦ write fragment) (s.frags remainder) = remainderOf s f size
  | .linkRemainder f remainder size origin | .cutEnd f remainder size origin
  | .cutSize f remainder size origin =>
      Wanted pl size ∧ origin.Ok s f ∧ Held s place f ∧ size < s.size f ∧
        (s.frags remainder).pool = none ∧ s.start remainder = s.start f + size ∧
        s.size remainder = s.size f - size
  | .addRemainder f remainder size origin =>
      Wanted pl size ∧ origin.Ok s f ∧ Held s place f ∧ s.size f = size ∧ Held s place remainder
  | .addFragment f size origin => Wanted pl size ∧ origin.Ok s f ∧ Held s place f ∧ s.size f = size
  | .finish f size origin =>
      Wanted pl size ∧ origin.Ok s f ∧ (s.frags f).pool = some .alloc ∧ s.size f = size
  | .compareSame f ptr size | .compareMore f ptr size =>
      Wanted pl size ∧ (s.frags f).pool = some .alloc ∧ s.start f = ptr
  | .freeFind ptr f => (s.frags f).pool = some .alloc ∧ s.start f = ptr
  | .freeRemove f => (s.frags f).pool = some .alloc
  | .freeStamp f | .freeAdd f => Held s place f

/-- The buffer a thread makes smaller, and its new size. -/
def Origin.shrinks (size : ℕ) : Origin → Option (ℤ × ℕ)
  | .pool _ _ | .fresh _ => none
  | .shrink ptr => some (ptr, size)

def PC.shrinks : PC → Option (ℤ × ℕ)
  | .checkSize _ size origin | .checkPool _ size origin | .loadPool _ size origin
  | .remove _ _ size origin | .checkWhole _ size origin | .getRemainder _ size origin
  | .addFragment _ size origin | .finish _ size origin | .initRemainder _ _ _ size origin
  | .linkRemainder _ _ size origin | .cutEnd _ _ size origin | .cutSize _ _ size origin
  | .addRemainder _ _ size origin => origin.shrinks size
  | _ => none

/-- The live range `x` is the beginning of fragment `f`, which is handed out, or in the hands of a
thread that keeps it for the client. -/
structure Settled (s : Allocator) (pc : ℕ → PC) (place : Owner → Option (ℤ × ℤ)) (f : ℕ)
    (x : ℤ × ℤ) : Prop where
  covers : ∃ n, place (.fragment f) = some (x.1, n) ∧ x.2 ≤ n
  kept : ∀ t, f ∈ (pc t).fragments → f ∈ (pc t).kept
  handed : (∀ t, f ∉ (pc t).fragments) → (s.frags f).pool = some .alloc

/-- The invariant of all interleavings, with the ledger `place` of who has which addresses. -/
structure WorldInv (pl : Platform) (w : World) (place : Owner → Option (ℤ × ℤ)) : Prop where
  ledger : Ledger w.regions place
  regions : ∀ r ∈ w.regions, 0 < r.1 ∧ r.2 < 2 ^ 31 ∧ r.1 + r.2 ≤ 2 ^ 63
  index : ∀ pool, Indexes w.s pool
  placed : ∀ f, (w.s.frags f).pool ≠ none → place (.fragment f) = some (extent w.s f)
  records : w.s.fragmentFreeList.Keeps fun f ↦
    (w.s.frags f).pool ≠ none ∨ ∃ t, f ∈ (w.pc t).fragments
  blockRecords : w.s.blockFreeList.Keeps (· ∈ w.s.blockUsedList)
  exclusive : ∀ t t' f, f ∈ (w.pc t).fragments → f ∈ (w.pc t').fragments → t = t'
  nodup : ∀ t, (w.pc t).fragments.Nodup
  ok : ∀ t, (w.pc t).Ok pl w.s place t
  settled : ∀ x ∈ w.live, ∃ f, Settled w.s w.pc place f x
  distinct : (w.live.map Prod.fst).Nodup
  bounds : ∀ t ptr size, (w.pc t).shrinks = some (ptr, size) → ∀ x ∈ w.live, x.1 = ptr → x.2 ≤ size

variable {pl : Platform} {s s' : Allocator} {place place' : Owner → Option (ℤ × ℤ)} {t f : ℕ}

/-! ## What a thread knows depends on what it has in hand -/

/-- Two states that agree on fragments and on their places. -/
def Agree (s s' : Allocator) (place place' : Owner → Option (ℤ × ℤ)) (fragments : List ℕ) : Prop :=
  ∀ f ∈ fragments, s'.frags f = s.frags f ∧ place' (.fragment f) = place (.fragment f)

theorem Held.congr (h : Held s place f) (hfrag : s'.frags f = s.frags f)
    (hplace : place' (.fragment f) = place (.fragment f)) : Held s' place' f := by
  simpa only [Held, extent, Allocator.start, Allocator.size, hfrag, hplace] using h

theorem Job.Ok.congr {job : Job} (h : job.Ok s)
    (hframe : ∀ g ∈ job.fragments, s'.frags g = s.frags g) : job.Ok s' := by
  cases job with
  | memalloc => trivial
  | grow ptr old =>
      have hold := hframe old (by simp [Job.fragments])
      simpa only [Job.Ok, Allocator.start, hold] using h

theorem Origin.Ok.congr {origin : Origin} (h : origin.Ok s f) (hstart : s'.start f = s.start f)
    (hframe : ∀ g ∈ origin.fragments, s'.frags g = s.frags g) : origin.Ok s' f := by
  cases origin with
  | pool p job => exact Job.Ok.congr h hframe
  | fresh job => exact Job.Ok.congr h hframe
  | shrink ptr => exact hstart.trans h

theorem Origin.Before.congr {origin : Origin} (h : origin.Before s place f)
    (hfrag : s'.frags f = s.frags f) (hplace : place' (.fragment f) = place (.fragment f)) :
    origin.Before s' place' f := by
  cases origin with
  | pool p job => simpa only [Origin.Before, hfrag] using h
  | fresh job => exact Held.congr h hfrag hplace
  | shrink ptr => simpa only [Origin.Before, hfrag] using h

theorem PC.Ok.congr {pc : PC} (h : pc.Ok pl s place t)
    (hframe : Agree s s' place place' pc.fragments)
    (hthread : place' (.thread t) = place (.thread t)) : pc.Ok pl s' place' t := by
  have hjob : ∀ {f : ℕ} {job : Job}, Agree s s' place place' (f :: job.fragments) → job.Ok s →
      job.Ok s' := fun hframe hok ↦ hok.congr fun g hg ↦ (hframe g (by simp [hg])).1
  have horigin : ∀ {f : ℕ} {origin : Origin}, Agree s s' place place' (f :: origin.fragments) →
      origin.Ok s f → origin.Ok s' f := fun hframe hok ↦
    hok.congr (congrArg Fragment.start (hframe _ (by simp)).1) fun g hg ↦
      (hframe g (by simp [hg])).1
  have horigin₂ : ∀ {f r : ℕ} {origin : Origin},
      Agree s s' place place' (f :: r :: origin.fragments) → origin.Ok s f → origin.Ok s' f :=
    fun hframe hok ↦ hok.congr (congrArg Fragment.start (hframe _ (by simp)).1) fun g hg ↦
      (hframe g (by simp [hg])).1
  cases pc with
  | idle => trivial
  | select pool size job => exact ⟨h.1, h.2.1.congr fun g hg ↦ (hframe g hg).1, h.2.2⟩
  | malloc size job => exact ⟨h.1, h.2.congr fun g hg ↦ (hframe g hg).1⟩
  | getBlock blk size job | initBlock blk b stage size job | getFragment blk b size job =>
      exact ⟨h.1, h.2.1.congr fun g hg ↦ (hframe g hg).1, hthread.trans h.2.2⟩
  | initFragment blk b f stage size job =>
      obtain ⟨hwanted, hok, hplace, hpool, hfold⟩ := h
      have hf := (hframe f (by simp [PC.fragments])).1
      exact ⟨hwanted, hjob hframe hok, hthread.trans hplace, by rw [hf]; exact hpool,
        by rw [hf]; exact hfold⟩
  | linkFragment b f size job =>
      obtain ⟨hwanted, hok, hheld, hle⟩ := h
      obtain ⟨hf, hplace⟩ := hframe f (by simp [PC.fragments])
      exact ⟨hwanted, hjob hframe hok, hheld.congr hf hplace, by rwa [Allocator.size, hf]⟩
  | checkSize f size origin =>
      obtain ⟨hwanted, hok, hbefore, hle⟩ := h
      obtain ⟨hf, hplace⟩ := hframe f (by simp [PC.fragments])
      exact ⟨hwanted, horigin hframe hok, hbefore.congr hf hplace, by rwa [Allocator.size, hf]⟩
  | checkPool f size origin =>
      obtain ⟨hwanted, hok, hbefore, hle⟩ := h
      obtain ⟨hf, hplace⟩ := hframe f (by simp [PC.fragments])
      exact ⟨hwanted, horigin hframe hok, hbefore.congr hf hplace, by rwa [Allocator.size, hf]⟩
  | loadPool f size origin =>
      obtain ⟨hwanted, hok, hpool, hle⟩ := h
      have hf := (hframe f (by simp [PC.fragments])).1
      exact ⟨hwanted, horigin hframe hok, by rwa [hf], by rwa [Allocator.size, hf]⟩
  | remove f pool size origin =>
      obtain ⟨hwanted, hok, hpool, hne, hle⟩ := h
      have hf := (hframe f (by simp [PC.fragments])).1
      exact ⟨hwanted, horigin hframe hok, by rwa [hf], hne, by rwa [Allocator.size, hf]⟩
  | checkWhole f size origin =>
      obtain ⟨hwanted, hok, hheld, hle⟩ := h
      obtain ⟨hf, hplace⟩ := hframe f (by simp [PC.fragments])
      exact ⟨hwanted, horigin hframe hok, hheld.congr hf hplace, by rwa [Allocator.size, hf]⟩
  | getRemainder f size origin =>
      obtain ⟨hwanted, hok, hheld, hle⟩ := h
      obtain ⟨hf, hplace⟩ := hframe f (by simp [PC.fragments])
      exact ⟨hwanted, horigin hframe hok, hheld.congr hf hplace, by rwa [Allocator.size, hf]⟩
  | initRemainder f r stage size origin =>
      obtain ⟨hwanted, hok, hheld, hle, hpool, hfold⟩ := h
      obtain ⟨hf, hplace⟩ := hframe f (by simp [PC.fragments])
      have hr := (hframe r (by simp [PC.fragments])).1
      have hrest : remainderOf s' f size = remainderOf s f size := by simp only [remainderOf, hf]
      exact ⟨hwanted, horigin₂ hframe hok, hheld.congr hf hplace, by rwa [Allocator.size, hf],
        by rwa [hr], by rw [hrest, hr]; exact hfold⟩
  | linkRemainder f r size origin | cutEnd f r size origin | cutSize f r size origin =>
      obtain ⟨hwanted, hok, hheld, hle, hpool, hstart, hsize⟩ := h
      obtain ⟨hf, hplace⟩ := hframe f (by simp [PC.fragments])
      have hr := (hframe r (by simp [PC.fragments])).1
      exact ⟨hwanted, horigin₂ hframe hok, hheld.congr hf hplace, by rwa [Allocator.size, hf],
        by rwa [hr], by rwa [Allocator.start, Allocator.start, hf, hr],
        by rwa [Allocator.size, Allocator.size, hf, hr]⟩
  | addRemainder f r size origin =>
      obtain ⟨hwanted, hok, hheld, hsize, hheld'⟩ := h
      obtain ⟨hf, hplace⟩ := hframe f (by simp [PC.fragments])
      obtain ⟨hr, hplace'⟩ := hframe r (by simp [PC.fragments])
      exact ⟨hwanted, horigin₂ hframe hok, hheld.congr hf hplace, by rwa [Allocator.size, hf],
        hheld'.congr hr hplace'⟩
  | addFragment f size origin =>
      obtain ⟨hwanted, hok, hheld, hsize⟩ := h
      obtain ⟨hf, hplace⟩ := hframe f (by simp [PC.fragments])
      exact ⟨hwanted, horigin hframe hok, hheld.congr hf hplace, by rwa [Allocator.size, hf]⟩
  | finish f size origin =>
      obtain ⟨hwanted, hok, hpool, hsize⟩ := h
      have hf := (hframe f (by simp [PC.fragments])).1
      exact ⟨hwanted, horigin hframe hok, by rwa [hf], by rwa [Allocator.size, hf]⟩
  | compareSame f ptr size | compareMore f ptr size =>
      obtain ⟨hwanted, hpool, hstart⟩ := h
      have hf := (hframe f (by simp [PC.fragments])).1
      exact ⟨hwanted, by rwa [hf], by rwa [Allocator.start, hf]⟩
  | freeFind ptr f =>
      have hf := (hframe f (by simp [PC.fragments])).1
      exact ⟨by rw [hf]; exact h.1, by rw [Allocator.start, hf]; exact h.2⟩
  | freeRemove f =>
      have hf := (hframe f (by simp [PC.fragments])).1
      simpa only [PC.Ok, hf] using h
  | freeStamp f | freeAdd f =>
      obtain ⟨hf, hplace⟩ := hframe f (by simp [PC.fragments])
      exact Held.congr h hf hplace

/-! ## One thread at a time -/

variable {w w' : World} {pc old : PC}

/-- What belongs to the other threads: nothing of it is in the hands of `t` before or after. -/
def World.Others (w : World) (t : ℕ) (pc : PC) (f : ℕ) : Prop :=
  f ∉ (w.pc t).fragments ∧ f ∉ pc.fragments

/-- A live range that thread `t` has no hand in stays settled. -/
theorem Settled.frame {x : ℤ × ℤ} (h : Settled w.s w.pc place f x)
    (hpc : w'.pc = Function.update w.pc t pc) (hf : w.Others t pc f)
    (hframe : w'.s.frags f = w.s.frags f)
    (hplace : place' (.fragment f) = place (.fragment f)) :
    Settled w'.s w'.pc place' f x := by
  refine ⟨by rw [hplace]; exact h.covers, fun t' ht' ↦ ?_, fun hnone ↦ ?_⟩
  · rw [hpc, Function.update_apply] at ht' ⊢
    split_ifs at ht' ⊢ with heq
    · exact absurd ht' hf.2
    · exact h.kept t' ht'
  · rw [hframe]
    refine h.handed fun t' ht' ↦ ?_
    by_cases heq : t' = t
    · exact hf.1 (heq ▸ ht')
    · exact hnone t' (by rwa [hpc, Function.update_of_ne heq])

/-- A step of thread `t` that leaves what other threads have alone. -/
theorem WorldInv.update (h : WorldInv pl w place) (hpc : w'.pc = Function.update w.pc t pc)
    (hledger : Ledger w'.regions place')
    (hregions : ∀ r ∈ w'.regions, 0 < r.1 ∧ r.2 < 2 ^ 31 ∧ r.1 + r.2 ≤ 2 ^ 63)
    (hindex : ∀ pool, Indexes w'.s pool)
    (hframe : ∀ g, w.Others t pc g →
      w'.s.frags g = w.s.frags g ∧ place' (.fragment g) = place (.fragment g))
    (hthread : ∀ t', t' ≠ t → place' (.thread t') = place (.thread t'))
    (hplaced : ∀ g, ¬ w.Others t pc g → (w'.s.frags g).pool ≠ none →
      place' (.fragment g) = some (extent w'.s g))
    (hrecords : w'.s.fragmentFreeList.Keeps fun g ↦ (w'.s.frags g).pool ≠ none ∨
      g ∈ pc.fragments ∨ ∃ t', t' ≠ t ∧ g ∈ (w.pc t').fragments)
    (hblocks : w'.s.blockFreeList.Keeps (· ∈ w'.s.blockUsedList))
    (hfresh : ∀ g ∈ pc.fragments, ∀ t', t' ≠ t → g ∉ (w.pc t').fragments)
    (hnodup : pc.fragments.Nodup) (hok : pc.Ok pl w'.s place' t)
    (hsettled : ∀ x ∈ w'.live, ∃ f, Settled w'.s w'.pc place' f x)
    (hdistinct : (w'.live.map Prod.fst).Nodup)
    (hbounds : ∀ t' ptr size, (w'.pc t').shrinks = some (ptr, size) →
      ∀ x ∈ w'.live, x.1 = ptr → x.2 ≤ size) : WorldInv pl w' place' := by
  have hself : w'.pc t = pc := by rw [hpc, Function.update_self]
  have hother : ∀ t', t' ≠ t → w'.pc t' = w.pc t' := fun t' ht' ↦ by
    rw [hpc, Function.update_of_ne ht']
  have hothers : ∀ t', t' ≠ t → ∀ g ∈ (w.pc t').fragments, w.Others t pc g := fun t' ht' g hg ↦
    ⟨fun hmine ↦ ht' (h.exclusive t' t g hg hmine), fun hnew ↦ hfresh g hnew t' ht' hg⟩
  refine ⟨hledger, hregions, hindex, fun g hg ↦ ?_, hrecords.congr fun g ↦ or_congr Iff.rfl ?_,
    hblocks, fun t₁ t₂ g hg₁ hg₂ ↦ ?_, fun t' ↦ ?_, fun t' ↦ ?_, hsettled, hdistinct, hbounds⟩
  · by_cases hmine : w.Others t pc g
    · obtain ⟨hfrag, hplace⟩ := hframe g hmine
      rw [hplace, extent, Allocator.start, Allocator.size, hfrag]
      exact h.placed g (by rwa [← hfrag])
    · exact hplaced g hmine hg
  · constructor
    · rintro ⟨t', ht'⟩
      by_cases heq : t' = t
      · exact Or.inl (by rwa [heq, hself] at ht')
      · exact Or.inr ⟨t', heq, by rwa [hother t' heq] at ht'⟩
    · rintro (hg | ⟨t', hne, ht'⟩)
      · exact ⟨t, by rwa [hself]⟩
      · exact ⟨t', by rwa [hother t' hne]⟩
  · by_cases h₁ : t₁ = t
    · by_cases h₂ : t₂ = t
      · exact h₁.trans h₂.symm
      · rw [hother t₂ h₂] at hg₂
        rw [h₁, hself] at hg₁
        exact absurd hg₂ (hfresh g hg₁ t₂ h₂)
    · rw [hother t₁ h₁] at hg₁
      by_cases h₂ : t₂ = t
      · rw [h₂, hself] at hg₂
        exact absurd hg₁ (hfresh g hg₂ t₁ h₁)
      · rw [hother t₂ h₂] at hg₂
        exact h.exclusive t₁ t₂ g hg₁ hg₂
  · by_cases heq : t' = t
    · rwa [heq, hself]
    · rw [hother t' heq]
      exact h.nodup t'
  · by_cases heq : t' = t
    · rwa [heq, hself]
    · rw [hother t' heq]
      exact (h.ok t').congr (fun g hg ↦ hframe g (hothers t' heq g hg)) (hthread t' heq)

/-- A step of thread `t` that changes at most the fragments it has in hand.  What it lets go of is
in a pool afterwards. -/
theorem WorldInv.move (h : WorldInv pl w place) (hold : w.pc t = old)
    (hsub : pc.fragments.Sublist old.fragments)
    (hkept : ∀ g ∈ old.kept, ∀ x ∈ w.live, Settled w.s w.pc place g x →
      g ∈ pc.kept ∨ g ∉ pc.fragments ∧ (s'.frags g).pool = some .alloc)
    (hshrinks : ∀ ptr size, pc.shrinks = some (ptr, size) → ∀ x ∈ w.live, x.1 = ptr → x.2 ≤ size)
    (hledger : Ledger w.regions place') (hindex : ∀ pool, Indexes s' pool)
    (hframe : ∀ g, g ∉ old.fragments →
      s'.frags g = w.s.frags g ∧ place' (.fragment g) = place (.fragment g))
    (hthread : ∀ t', t' ≠ t → place' (.thread t') = place (.thread t'))
    (hplaced : ∀ g ∈ old.fragments, (s'.frags g).pool ≠ none →
      place' (.fragment g) = some (extent s' g))
    (hdropped : ∀ g ∈ old.fragments, g ∉ pc.fragments → (s'.frags g).pool ≠ none)
    (hcovers : ∀ g ∈ old.kept, ∀ x ∈ w.live,
      (∃ n, place (.fragment g) = some (x.1, n) ∧ x.2 ≤ n) →
      ∃ n, place' (.fragment g) = some (x.1, n) ∧ x.2 ≤ n)
    (hfree : s'.fragmentFreeList = w.s.fragmentFreeList)
    (hblocks : s'.blockFreeList.Keeps (· ∈ s'.blockUsedList))
    (hok : pc.Ok pl s' place' t) : WorldInv pl (w.edit t s' pc) place' := by
  subst hold
  have hpc : (w.edit t s' pc).pc = Function.update w.pc t pc := rfl
  have hothers : ∀ g, w.Others t pc g ↔ g ∉ (w.pc t).fragments := fun g ↦
    ⟨fun hg ↦ hg.1, fun hg ↦ ⟨hg, fun hg' ↦ hg (hsub.subset hg')⟩⟩
  refine h.update hpc hledger h.regions hindex (fun g hg ↦ hframe g hg.1) hthread
    (fun g hg hpool ↦ hplaced g (by simpa [hothers] using hg) hpool) ?_ hblocks
    (fun g hg t' ht' hg' ↦ ht' (h.exclusive t' t g hg' (hsub.subset hg))) (hsub.nodup (h.nodup t))
    hok (fun x hx ↦ ?_) h.distinct (fun t' ptr size ht' ↦ ?_)
  · rw [show (w.edit t s' pc).s = s' from rfl, hfree]
    refine h.records.congr fun g ↦ ?_
    by_cases hg : g ∈ (w.pc t).fragments
    · refine iff_of_true ?_ (Or.inr ⟨t, hg⟩)
      by_cases hg' : g ∈ pc.fragments
      · exact Or.inr (Or.inl hg')
      · exact Or.inl (hdropped g hg hg')
    · rw [(hframe g hg).1]
      refine or_congr Iff.rfl ⟨?_, ?_⟩
      · rintro (hg' | ⟨t', -, hg'⟩)
        · exact absurd (hsub.subset hg') hg
        · exact ⟨t', hg'⟩
      · rintro ⟨t', hg'⟩
        refine Or.inr ⟨t', ?_, hg'⟩
        rintro rfl
        exact hg hg'
  · obtain ⟨f, hset⟩ := h.settled x hx
    refine ⟨f, ?_⟩
    by_cases hf : f ∈ (w.pc t).fragments
    · have hmine : f ∈ (w.pc t).kept := hset.kept t hf
      have hafter := hkept f hmine x hx hset
      refine ⟨hcovers f hmine x hx hset.covers, fun t' ht' ↦ ?_, fun hnone ↦ ?_⟩
      · rw [hpc, Function.update_apply] at ht' ⊢
        split_ifs at ht' ⊢ with heq
        · exact hafter.resolve_right fun hgone ↦ hgone.1 ht'
        · exact hset.kept t' ht'
      · rcases hafter with hin | hgone
        · exact absurd (pc.mem_fragments_of_kept hin) (by simpa [hpc] using hnone t)
        · exact hgone.2
    · exact hset.frame hpc ((hothers f).mpr hf) (hframe f hf).1 (hframe f hf).2
  · rw [hpc, Function.update_apply] at ht'
    split_ifs at ht' with heq
    · exact hshrinks ptr size ht'
    · exact h.bounds t' ptr size ht'

/-- A step of thread `t` that changes no places and after which it has the same fragments in
hand. -/
theorem WorldInv.stay (h : WorldInv pl w place) (hold : w.pc t = old)
    (hfrags : pc.fragments = old.fragments)
    (hkept : pc.kept = old.kept) (hshrinks : pc.shrinks = old.shrinks)
    (hindex : ∀ pool, Indexes s' pool)
    (hframe : ∀ g, g ∉ old.fragments → s'.frags g = w.s.frags g)
    (hplaced : ∀ g ∈ old.fragments, (s'.frags g).pool ≠ none →
      place (.fragment g) = some (extent s' g))
    (hfree : s'.fragmentFreeList = w.s.fragmentFreeList)
    (hblocks : s'.blockFreeList.Keeps (· ∈ s'.blockUsedList))
    (hok : pc.Ok pl s' place t) : WorldInv pl (w.edit t s' pc) place :=
  h.move hold (by rw [hfrags]) (fun g hg _ _ _ ↦ Or.inl (hkept ▸ hg))
    (fun ptr size hr ↦ h.bounds t ptr size (hold ▸ hshrinks ▸ hr)) h.ledger hindex
    (fun g hg ↦ ⟨hframe g hg, rfl⟩) (fun _ _ ↦ rfl) hplaced
    (fun g hg hg' ↦ absurd (hfrags ▸ hg) hg') (fun _ _ _ _ hcov ↦ hcov) hfree hblocks hok

/-- A step of thread `t` that changes no fragment. -/
theorem WorldInv.silent (h : WorldInv pl w place) (hold : w.pc t = old)
    (hfrags : pc.fragments = old.fragments)
    (hkept : pc.kept = old.kept) (hshrinks : pc.shrinks = old.shrinks)
    (hsame : s'.frags = w.s.frags) (hpools : s'.pools = w.s.pools)
    (hfree : s'.fragmentFreeList = w.s.fragmentFreeList)
    (hblocks : s'.blockFreeList.Keeps (· ∈ s'.blockUsedList))
    (hok : pc.Ok pl w.s place t) : WorldInv pl (w.edit t s' pc) place := by
  refine h.stay hold hfrags hkept hshrinks
    (indexes_congr h.index hpools fun g ↦ Or.inl (by rw [hsame]))
    (fun g _ ↦ by rw [hsame]) (fun g _ hpool ↦ ?_) hfree hblocks
    (hok.congr (fun g _ ↦ ⟨by rw [hsame], rfl⟩) rfl)
  rw [extent, Allocator.start, Allocator.size, hsame]
  exact h.placed g (by rwa [← hsame])

theorem WorldInv.goto (h : WorldInv pl w place) (hold : w.pc t = old)
    (hfrags : pc.fragments = old.fragments)
    (hkept : pc.kept = old.kept) (hshrinks : pc.shrinks = old.shrinks)
    (hok : pc.Ok pl w.s place t) : WorldInv pl (w.goto t pc) place :=
  h.silent hold hfrags hkept hshrinks rfl rfl rfl h.blockRecords hok

/-- A step of thread `t` that writes to a fragment it has in hand and out of its pool. -/
theorem WorldInv.write (h : WorldInv pl w place) (hold : w.pc t = old)
    (hfrags : pc.fragments = old.fragments)
    (hkept : pc.kept = old.kept) (hshrinks : pc.shrinks = old.shrinks)
    {fragment : Fragment} (hf : f ∈ old.fragments) (hout : (w.s.frags f).pool = none)
    (hout' : fragment.pool = none) (hok : pc.Ok pl (w.s.setFrag f fragment) place t) :
    WorldInv pl (w.edit t (w.s.setFrag f fragment) pc) place := by
  have hne : ∀ g, g ≠ f → (w.s.setFrag f fragment).frags g = w.s.frags g := fun g hg ↦ by simp [hg]
  refine h.stay hold hfrags hkept hshrinks (indexes_congr h.index rfl fun g ↦ ?_) (fun g hg ↦ ?_)
    (fun g hg hpool ↦ ?_) rfl h.blockRecords hok
  · by_cases hgf : g = f
    · exact Or.inr ⟨by rw [hgf]; exact hout, by simp [hgf, hout']⟩
    · exact Or.inl (hne g hgf)
  · exact hne g fun heq ↦ hg (heq ▸ hf)
  · have hgf : g ≠ f := by
      rintro rfl
      simp [hout'] at hpool
    rw [extent, Allocator.start, Allocator.size, hne g hgf]
    exact h.placed g (by rwa [hne g hgf] at hpool)

/-- A step of thread `t` in which it gets hold of one more fragment. -/
theorem WorldInv.acquire (h : WorldInv pl w place) (hold : w.pc t = old)
    (hmem : ∀ g, g ∈ pc.fragments ↔ g = f ∨ g ∈ old.fragments) (hnodup : pc.fragments.Nodup)
    (hfresh : ∀ t', t' ≠ t → f ∉ (w.pc t').fragments)
    (hkept : ∀ g ∈ old.kept, g ∈ pc.kept)
    (htoken : ∀ x ∈ w.live, Settled w.s w.pc place f x → f ∈ pc.kept)
    (hshrinks : pc.shrinks = old.shrinks) (hsame : s'.frags = w.s.frags)
    (hpools : s'.pools = w.s.pools)
    (hrecords : s'.fragmentFreeList.Keeps fun g ↦
      g = f ∨ (w.s.frags g).pool ≠ none ∨ ∃ t', g ∈ (w.pc t').fragments)
    (hblocks : s'.blockFreeList.Keeps (· ∈ s'.blockUsedList))
    (hok : pc.Ok pl w.s place t) : WorldInv pl (w.edit t s' pc) place := by
  subst hold
  have hpc : (w.edit t s' pc).pc = Function.update w.pc t pc := rfl
  refine h.update hpc h.ledger h.regions
    (indexes_congr h.index hpools fun g ↦ Or.inl (by
      rw [show (w.edit t s' pc).s = s' from rfl, hsame]))
    (fun g _ ↦ ⟨by rw [show (w.edit t s' pc).s = s' from rfl, hsame], rfl⟩) (fun _ _ ↦ rfl)
    (fun g _ hpool ↦ ?_) ?_ hblocks (fun g hg t' ht' hg' ↦ ?_) hnodup
    (hok.congr (fun g _ ↦ ⟨by rw [show (w.edit t s' pc).s = s' from rfl, hsame], rfl⟩) rfl)
    (fun x hx ↦ ?_) h.distinct (fun t' ptr size ht' ↦ ?_)
  · rw [show (w.edit t s' pc).s = s' from rfl] at hpool ⊢
    rw [extent, Allocator.start, Allocator.size, hsame]
    exact h.placed g (by rwa [← hsame])
  · rw [show (w.edit t s' pc).s = s' from rfl]
    refine hrecords.congr fun g ↦ ?_
    rw [hsame, hmem]
    constructor
    · rintro (hg | (hg | hg) | ⟨t', -, hg⟩)
      · exact Or.inr (Or.inl hg)
      · exact Or.inl hg
      · exact Or.inr (Or.inr ⟨t, hg⟩)
      · exact Or.inr (Or.inr ⟨t', hg⟩)
    · rintro (hg | hg | ⟨t', hg⟩)
      · exact Or.inr (Or.inl (Or.inl hg))
      · exact Or.inl hg
      · by_cases heq : t' = t
        · exact Or.inr (Or.inl (Or.inr (heq ▸ hg)))
        · exact Or.inr (Or.inr ⟨t', heq, hg⟩)
  · rcases (hmem g).mp hg with rfl | hg
    · exact hfresh t' ht' hg'
    · exact ht' (h.exclusive t' t g hg' hg)
  · obtain ⟨g, hset⟩ := h.settled x hx
    refine ⟨g, hset.covers, fun t' ht' ↦ ?_, fun hnone ↦ ?_⟩
    · rw [hpc, Function.update_apply] at ht' ⊢
      split_ifs at ht' ⊢ with heq
      · rcases (hmem g).mp ht' with rfl | hg
        · exact htoken x hx hset
        · exact hkept g (hset.kept t hg)
      · exact hset.kept t' ht'
    · rw [show (w.edit t s' pc).s = s' from rfl, hsame]
      refine hset.handed fun t' ht' ↦ ?_
      by_cases heq : t' = t
      · exact hnone t (by simpa [hpc, hmem] using Or.inr (heq ▸ ht'))
      · exact hnone t' (by rwa [hpc, Function.update_of_ne heq])
  · rw [hpc, Function.update_apply] at ht'
    split_ifs at ht' with heq
    · exact h.bounds t ptr size (hshrinks ▸ ht')
    · exact h.bounds t' ptr size ht'

/-- Thread `t` gets a region from `malloc`. -/
theorem WorldInv.grant (h : WorldInv pl w place) {a n : ℤ} (ha : 0 < a) (hn : 0 < n)
    (hlt : n < 2 ^ 31) (hle : a + n ≤ 2 ^ 63) (hfresh : ∀ r ∈ w.regions, Apart a n r.1 r.2)
    (hok : (w.pc t).Ok pl w.s (Function.update place (.thread t) (some (a, n))) t) :
    WorldInv pl { w with regions := (a, n) :: w.regions }
      (Function.update place (.thread t) (some (a, n))) := by
  have hplace : ∀ g, Function.update place (.thread t) (some (a, n)) (.fragment g) =
      place (.fragment g) := fun g ↦ Function.update_of_ne (by simp) _ _
  refine { h with
    ledger := h.ledger.grant (.thread t) hn hfresh
    regions := fun r hr ↦ ?_
    placed := fun g hg ↦ (hplace g).trans (h.placed g hg)
    ok := fun t' ↦ ?_
    settled := fun x hx ↦ ?_ }
  · rcases List.mem_cons.mp hr with rfl | hr
    · exact ⟨ha, hlt, hle⟩
    · exact h.regions r hr
  · by_cases heq : t' = t
    · exact heq ▸ hok
    · exact (h.ok t').congr (fun g _ ↦ ⟨rfl, hplace g⟩)
        (Function.update_of_ne (by simpa using heq) _ _)
  · obtain ⟨f, hset⟩ := h.settled x hx
    exact ⟨f, by rw [hplace]; exact hset.covers, hset.kept, hset.handed⟩

/-! ## The clients' side -/

/-- Clients give up what starts at `p`. -/
theorem WorldInv.forget (h : WorldInv pl w place) (p : ℤ) :
    WorldInv pl { w with live := w.live.filter (·.1 ≠ p) } place :=
  { h with
    settled := fun x hx ↦ h.settled x (List.mem_of_mem_filter hx)
    distinct := (List.filter_sublist.map _).nodup h.distinct
    bounds := fun t ptr size ht x hx ↦ h.bounds t ptr size ht x (List.mem_of_mem_filter hx) }

/-- A client gets a new range. -/
theorem WorldInv.remember (h : WorldInv pl w place) {x : ℤ × ℤ} (hset : Settled w.s w.pc place f x)
    (hnew : ∀ y ∈ w.live, y.1 ≠ x.1)
    (hbound : ∀ t ptr size, (w.pc t).shrinks = some (ptr, size) → x.1 = ptr → x.2 ≤ size) :
    WorldInv pl { w with live := x :: w.live } place :=
  { h with
    settled := fun y hy ↦ by
      rcases List.mem_cons.mp hy with rfl | hy
      · exact ⟨f, hset⟩
      · exact h.settled y hy
    distinct := by
      rw [List.map_cons, List.nodup_cons]
      refine ⟨fun hmem ↦ ?_, h.distinct⟩
      obtain ⟨y, hy, heq⟩ := List.mem_map.mp hmem
      exact hnew y hy heq
    bounds := fun t ptr size ht y hy ↦ by
      rcases List.mem_cons.mp hy with rfl | hy
      · exact hbound t ptr size ht
      · exact h.bounds t ptr size ht y hy }

end HavokMud.Memory
