import HavokMud.Interaction.Locks
import Mathlib.Data.List.Count

/-!
# Traces of locks

The mutex operations that a call makes are kept in order beside its result, so that they can be
counted.  To perform them is a computation over the mutexes that the thread holds.
-/

namespace HavokMud.Interaction

/-- An operation on a mutex. -/
inductive MutexOp (μ : Type) where
  | lock (m : μ)
  | unlock (m : μ)
deriving DecidableEq

/-- The operations of a call and its result, which is `none` if it does not return. -/
structure Traced (μ α : Type) where
  ops : List (MutexOp μ)
  result : Option α

namespace Traced

variable {μ α β : Type}

/-- A computation that leaves the mutexes alone. -/
def compute (result : Option α) : Traced μ α :=
  ⟨[], result⟩

/-- A single operation. -/
def act (op : MutexOp μ) : Traced μ Unit :=
  ⟨[op], some ()⟩

/-- The second call begins when the first has returned. -/
def andThen (p : Traced μ α) (f : α → Traced μ β) : Traced μ β :=
  match p.result with
  | none => ⟨p.ops, none⟩
  | some a => ⟨p.ops ++ (f a).ops, (f a).result⟩

instance : Monad (Traced μ) where
  pure a := compute (some a)
  bind := andThen

@[simp]
theorem pure_eq (a : α) : (pure a : Traced μ α) = compute (some a) :=
  rfl

@[simp]
theorem compute_bind (a : α) (f : α → Traced μ β) : (compute (some a) >>= f) = f a :=
  rfl

@[simp]
theorem act_bind (op : MutexOp μ) (f : Unit → Traced μ β) :
    (act op >>= f) = ⟨op :: (f ()).ops, (f ()).result⟩ :=
  rfl

@[simp]
theorem mk_bind (ops : List (MutexOp μ)) (a : α) (f : α → Traced μ β) :
    ((⟨ops, some a⟩ : Traced μ α) >>= f) = ⟨ops ++ (f a).ops, (f a).result⟩ :=
  rfl

theorem result_bind (p : Traced μ α) (f : α → Traced μ β) :
    (p >>= f).result = p.result.bind fun a ↦ (f a).result := by
  change (andThen p f).result = _
  unfold andThen
  cases p.result <;> rfl

@[simp]
theorem ops_compute (result : Option α) : (compute result : Traced μ α).ops = [] :=
  rfl

@[simp]
theorem result_compute (result : Option α) : (compute result : Traced μ α).result = result :=
  rfl

end Traced

variable {μ : Type} [DecidableEq μ] {m : μ} {held : Finset μ}

/-- One operation. -/
def MutexOp.perform : MutexOp μ → Locking μ Unit
  | .lock m => Locking.lock m
  | .unlock m => Locking.unlock m

/-- The operations one after the other. -/
def perform : List (MutexOp μ) → Locking μ Unit
  | [] => pure ()
  | op :: ops => do
      op.perform
      perform ops

theorem perform_lock_unlock (hm : m ∉ held) :
    perform [.lock m, .unlock m] held = .ok ((), held) := by
  have hlock : MutexOp.perform (.lock m) held = .ok ((), insert m held) :=
    Locking.lock_of_notMem hm
  have hunlock : MutexOp.perform (.unlock m) (insert m held) = .ok ((), held) :=
    Locking.unlock_insert hm
  simp only [perform]
  rw [Locking.bind_of_ok hlock, Locking.bind_of_ok hunlock, Locking.pure_eq]

theorem perform_lock_lock (ops : List (MutexOp μ)) :
    perform (.lock m :: .lock m :: ops) held = .error .deadlock := by
  simp only [perform]
  by_cases hm : m ∈ held
  · exact Locking.bind_of_error (Locking.lock_of_mem hm) _
  · have hlock : MutexOp.perform (.lock m) held = .ok ((), insert m held) :=
      Locking.lock_of_notMem hm
    rw [Locking.bind_of_ok hlock]
    exact Locking.bind_of_error (Locking.lock_of_mem (by simp)) _

/-- What is promised of a call on a mutex that is free, or held if the call is told so. -/
structure LockBalanced {α : Type} (m : μ) (locked : Bool) (call : Traced μ α) : Prop where
  returns : call.result.isSome
  once : locked = false → call.ops.count (.lock m) ≤ 1
  released : locked = false → ∀ held, m ∉ held → perform call.ops held = .ok ((), held)
  untouched : locked = true → .lock m ∉ call.ops ∧ .unlock m ∉ call.ops

namespace LockBalanced

variable {α : Type} {locked : Bool}

/-- A call that takes the mutex once, unless it is told that it is held. -/
def guarded (m : μ) (locked : Bool) (a : α) : Traced μ α :=
  if locked then .compute (some a) else ⟨[.lock m, .unlock m], some a⟩

theorem of_compute (m : μ) (locked : Bool) (a : α) :
    LockBalanced m locked (Traced.compute (some a)) where
  returns := rfl
  once _ := by simp
  released _ _ _ := rfl
  untouched _ := by simp

theorem of_guarded (m : μ) (locked : Bool) (a : α) :
    LockBalanced m locked (guarded m locked a) := by
  cases locked with
  | true => exact of_compute m true a
  | false =>
      refine ⟨rfl, fun _ ↦ ?_, fun _ held hm ↦ perform_lock_unlock hm, ?_⟩
      · simp [guarded]
      · rintro ⟨⟩

theorem not_lock_lock (ops : List (MutexOp μ)) (result : Option α) :
    ¬ LockBalanced m false ⟨.lock m :: .lock m :: ops, result⟩ := by
  intro hbalanced
  have hreleased := hbalanced.released rfl ∅ (by simp)
  rw [perform_lock_lock] at hreleased
  cases hreleased

theorem not_lock (result : Option α) : ¬ LockBalanced m false ⟨[.lock m], result⟩ := by
  intro hbalanced
  have hreleased := hbalanced.released rfl ∅ (by simp)
  have hheld : perform [.lock m] ∅ = .ok ((), insert m ∅) := by
    simp only [perform]
    exact Locking.bind_of_ok (Locking.lock_of_notMem (by simp)) _
  rw [hheld] at hreleased
  simp at hreleased

end LockBalanced

end HavokMud.Interaction
