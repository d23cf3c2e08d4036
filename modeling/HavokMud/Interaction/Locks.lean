import Mathlib.Data.Finset.Basic
import Mathlib.Control.Lawful

/-!
# Non-recursive locks

Computations of one thread that take and release mutexes.  A thread that locks a mutex it holds
waits for itself, and to follow a NULL pointer ends it.  A computation is balanced where it returns
with the mutexes it began with.  Where a loop or a recursion has a bound, it may come to the bound
before it ends.
-/

namespace HavokMud.Interaction

/-- Why a computation does not return. -/
inductive Stop where
  | deadlock
  | crash
  | unfinished
deriving DecidableEq

/-- A computation over the mutexes that its thread holds. -/
abbrev Locking (μ : Type) [DecidableEq μ] : Type → Type :=
  StateT (Finset μ) (Except Stop)

namespace Locking

variable {μ : Type} [DecidableEq μ] {α β : Type} {held held' held₁ : Finset μ} {m : μ}

/-- `pthread_mutex_lock`. -/
def lock (m : μ) : Locking μ Unit := fun held ↦
  if m ∈ held then .error .deadlock else .ok ((), insert m held)

/-- `pthread_mutex_unlock`. -/
def unlock (m : μ) : Locking μ Unit := fun held ↦
  .ok ((), held.erase m)

/-- To follow a NULL pointer. -/
def crash : Locking μ α := fun _ ↦
  .error .crash

/-- What is behind a pointer. -/
def follow : Option α → Locking μ α
  | some a => pure a
  | none => crash

/-- The bound of a loop is reached. -/
def unfinished : Locking μ α := fun _ ↦
  .error .unfinished

/-- A computation between a lock and its unlock. -/
def within (m : μ) (p : Locking μ α) : Locking μ α := do
  lock m
  let a ← p
  unlock m
  pure a

/-- The computation returns with the mutexes it began with. -/
def Balanced (p : Locking μ α) (held : Finset μ) : Prop :=
  ∃ a, p held = .ok (a, held)

/-! ## Single steps -/

@[simp]
theorem pure_eq (a : α) (held : Finset μ) : (pure a : Locking μ α) held = .ok (a, held) :=
  rfl

@[simp]
theorem crash_eq (held : Finset μ) : (crash : Locking μ α) held = .error .crash :=
  rfl

theorem bind_eq (p : Locking μ α) (f : α → Locking μ β) (held : Finset μ) :
    (p >>= f) held = (p held).bind fun r ↦ f r.1 r.2 :=
  rfl

theorem bind_of_ok {p : Locking μ α} {a : α} (h : p held = .ok (a, held'))
    (f : α → Locking μ β) : (p >>= f) held = f a held' := by
  rw [bind_eq, h]
  rfl

theorem bind_of_error {p : Locking μ α} {stop : Stop} (h : p held = .error stop)
    (f : α → Locking μ β) : (p >>= f) held = .error stop := by
  rw [bind_eq, h]
  rfl

theorem bind_eq_ok {p : Locking μ α} {f : α → Locking μ β} {b : β} :
    (p >>= f) held = .ok (b, held') ↔
      ∃ a held₁, p held = .ok (a, held₁) ∧ f a held₁ = .ok (b, held') := by
  rw [bind_eq]
  cases p held with
  | error stop => simp [Except.bind]
  | ok r => simp [Except.bind, Prod.ext_iff]

theorem lock_of_notMem (h : m ∉ held) : lock m held = .ok ((), insert m held) := by
  rw [lock, if_neg h]

theorem lock_of_mem (h : m ∈ held) : lock m held = .error .deadlock := by
  rw [lock, if_pos h]

theorem unlock_insert (h : m ∉ held) : unlock m (insert m held) = .ok ((), held) := by
  rw [unlock, Finset.erase_insert h]

/-! ## Mutexes that may be no-ops -/

/-- `pthread_mutex_lock`, or nothing. -/
def acquire (real : Bool) (m : μ) : Locking μ Unit :=
  if real then lock m else pure ()

/-- `pthread_mutex_unlock`, or nothing. -/
def release (real : Bool) (m : μ) : Locking μ Unit :=
  if real then unlock m else pure ()

/-- The mutex can be locked. -/
def Free (real : Bool) (m : μ) (held : Finset μ) : Prop :=
  real = true → m ∉ held

/-- The mutexes that are held with one more. -/
def holding (real : Bool) (m : μ) (held : Finset μ) : Finset μ :=
  if real then insert m held else held

variable {real : Bool}

theorem acquire_of_free (h : Free real m held) :
    acquire real m held = .ok ((), holding real m held) := by
  cases real with
  | false => rfl
  | true => exact lock_of_notMem (h rfl)

theorem release_holding (h : Free real m held) :
    release real m (holding real m held) = .ok ((), held) := by
  cases real with
  | false => rfl
  | true => exact unlock_insert (h rfl)

omit [DecidableEq μ] in
/-- A mutex that is a no-op is always free. -/
theorem free_false (m : μ) (held : Finset μ) : Free false m held :=
  fun h ↦ nomatch h

theorem Free.holding {m' : μ} (h : Free real m held) (hne : m ≠ m') :
    Free real m (holding real m' held) := by
  cases real with
  | false => exact fun h ↦ nomatch h
  | true =>
      intro _ hmem
      exact (Finset.mem_insert.mp hmem).elim hne (h rfl)

/-! ## Between a lock and its unlock -/

theorem within_of_ok {p : Locking μ α} {a : α} (hm : m ∉ held)
    (h : p (insert m held) = .ok (a, insert m held)) : within m p held = .ok (a, held) := by
  unfold within
  rw [bind_of_ok (lock_of_notMem hm), bind_of_ok h, bind_of_ok (unlock_insert hm), pure_eq]

theorem within_of_error {p : Locking μ α} {stop : Stop} (hm : m ∉ held)
    (h : p (insert m held) = .error stop) : within m p held = .error stop := by
  unfold within
  rw [bind_of_ok (lock_of_notMem hm), bind_of_error h]

theorem within_of_mem {p : Locking μ α} (hm : m ∈ held) :
    within m p held = .error .deadlock := by
  unfold within
  rw [bind_of_error (lock_of_mem hm)]

/-- What returns between a lock and its unlock. -/
theorem within_eq_ok {p : Locking μ α} {a : α} (h : within m p held = .ok (a, held')) :
    m ∉ held ∧ ∃ held₁, p (insert m held) = .ok (a, held₁) := by
  by_cases hm : m ∈ held
  · rw [within_of_mem hm] at h
    cases h
  · refine ⟨hm, ?_⟩
    cases hrun : p (insert m held) with
    | error stop =>
        rw [within_of_error hm hrun] at h
        cases h
    | ok r =>
        obtain ⟨a', held₁⟩ := r
        unfold within at h
        rw [bind_of_ok (lock_of_notMem hm), bind_of_ok hrun] at h
        cases h
        exact ⟨held₁, rfl⟩

/-! ## Balanced computations -/

/-- The computation takes no lock that it leaves: it stops, or is balanced. -/
def Tidy (p : Locking μ α) : Prop :=
  ∀ held a held', p held = .ok (a, held') → held' = held

theorem Tidy.pure (a : α) : Tidy (Pure.pure a : Locking μ α) := by
  rintro held a' held' ⟨⟩
  rfl

theorem Tidy.crash : Tidy (crash : Locking μ α) := by
  rintro held a held' ⟨⟩

theorem Tidy.follow (p : Option α) : Tidy (follow p : Locking μ α) := by
  cases p
  · exact Tidy.crash
  · exact Tidy.pure _

theorem Tidy.bind {p : Locking μ α} {f : α → Locking μ β} (hp : Tidy p) (hf : ∀ a, Tidy (f a)) :
    Tidy (p >>= f) := by
  intro held b held' h
  obtain ⟨a, held₁, ha, hb⟩ := bind_eq_ok.mp h
  rw [hf a held₁ b held' hb, hp held a held₁ ha]

theorem Tidy.within {p : Locking μ α} (hp : Tidy p) (m : μ) : Tidy (within m p) := by
  intro held a held' h
  by_cases hm : m ∈ held
  · rw [within_of_mem hm] at h
    cases h
  · cases hrun : p (insert m held) with
    | error stop =>
        rw [within_of_error hm hrun] at h
        cases h
    | ok r =>
        obtain ⟨a', held₁⟩ := r
        obtain rfl := hp _ _ _ hrun
        rw [within_of_ok hm hrun] at h
        cases h
        rfl

/-- A loop whose steps are tidy. -/
theorem Tidy.foldlM {f : β → α → Locking μ β} (hf : ∀ b x, Tidy (f b x)) (xs : List α) (b : β) :
    Tidy (xs.foldlM f b) := by
  induction xs generalizing b with
  | nil => exact Tidy.pure b
  | cons x xs ih =>
      rw [List.foldlM_cons]
      exact (hf b x).bind ih

@[simp]
theorem balanced_pure (a : α) : Balanced (Pure.pure a : Locking μ α) held :=
  ⟨a, rfl⟩

@[simp]
theorem not_balanced_crash : ¬ Balanced (crash : Locking μ α) held := by
  rintro ⟨a, ⟨⟩⟩

theorem balanced_bind_iff {p : Locking μ α} (hp : Tidy p) {f : α → Locking μ β} :
    Balanced (p >>= f) held ↔ ∃ a, p held = .ok (a, held) ∧ Balanced (f a) held := by
  constructor
  · rintro ⟨b, hb⟩
    obtain ⟨a, held₁, ha, hb⟩ := bind_eq_ok.mp hb
    obtain rfl := hp held a held₁ ha
    exact ⟨a, ha, b, hb⟩
  · rintro ⟨a, ha, b, hb⟩
    exact ⟨b, bind_eq_ok.mpr ⟨a, held, ha, hb⟩⟩

/-- What is made of a result does not touch the locks. -/
theorem balanced_bind_pure_iff {p : Locking μ α} (hp : Tidy p) (f : α → β) :
    Balanced (p >>= fun a ↦ Pure.pure (f a)) held ↔ Balanced p held := by
  rw [balanced_bind_iff hp]
  exact ⟨fun ⟨a, ha, _⟩ ↦ ⟨a, ha⟩, fun ⟨a, ha⟩ ↦ ⟨a, ha, balanced_pure _⟩⟩

theorem balanced_within_iff {p : Locking μ α} (hp : Tidy p) :
    Balanced (within m p) held ↔ m ∉ held ∧ Balanced p (insert m held) := by
  constructor
  · rintro ⟨a, ha⟩
    by_cases hm : m ∈ held
    · rw [within_of_mem hm] at ha
      cases ha
    · refine ⟨hm, ?_⟩
      cases hrun : p (insert m held) with
      | error stop =>
          rw [within_of_error hm hrun] at ha
          cases ha
      | ok r =>
          obtain ⟨a', held₁⟩ := r
          obtain rfl := hp _ _ _ hrun
          exact ⟨a', hrun⟩
  · rintro ⟨hm, a, ha⟩
    exact ⟨a, within_of_ok hm ha⟩

end Locking

end HavokMud.Interaction
