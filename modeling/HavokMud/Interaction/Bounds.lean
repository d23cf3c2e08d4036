import HavokMud.Interaction.Locks
import Mathlib.Data.List.Infix

/-!
# Bounds that are large enough

A loop or a recursion with a bound is finite where every bound from some number on gives the same
result.  Calls that are made one after the other keep what each of them keeps.
-/

namespace HavokMud.Interaction.Locking

variable {μ σ ω α β : Type} [DecidableEq μ] {held : Finset μ}

/-- The computation returns with the mutexes it began with, once its bound is large enough. -/
def Yields (p : ℕ → Locking μ α) (held : Finset μ) (a : α) : Prop :=
  ∃ n, ∀ bound ≥ n, p bound held = .ok (a, held)

/-- The computation follows a NULL pointer, once its bound is large enough. -/
def Crashes (p : ℕ → Locking μ α) (held : Finset μ) : Prop :=
  ∃ n, ∀ bound ≥ n, p bound held = .error .crash

/-- The computation comes to an end with what it leaves, once its bound is large enough. -/
def Ends (p : ℕ → Locking μ α) (held : Finset μ) (r : Except Stop (α × Finset μ)) : Prop :=
  r ≠ .error .unfinished ∧ ∃ n, ∀ bound ≥ n, p bound held = r

namespace Yields

variable {p : ℕ → Locking μ α} {a a' : α}

theorem of_eq (h : ∀ bound, p bound held = .ok (a, held)) : Yields p held a :=
  ⟨0, fun bound _ ↦ h bound⟩

theorem bind {q : ℕ → α → Locking μ β} {b : β} (hp : Yields p held a)
    (hq : Yields (fun bound ↦ q bound a) held b) :
    Yields (fun bound ↦ p bound >>= q bound) held b := by
  obtain ⟨n, hp⟩ := hp
  obtain ⟨m, hq⟩ := hq
  refine ⟨max n m, fun bound hbound ↦ ?_⟩
  exact (bind_of_ok (hp bound (le_of_max_le_left hbound)) _).trans
    (hq bound (le_of_max_le_right hbound))

theorem map (h : Yields p held a) (f : α → β) : Yields (fun bound ↦ f <$> p bound) held (f a) := by
  obtain ⟨n, h⟩ := h
  refine ⟨n, fun bound hbound ↦ ?_⟩
  exact (congrFun (map_eq_pure_bind f (p bound)) held).trans (bind_of_ok (h bound hbound) _)

theorem unique (h : Yields p held a) (h' : Yields p held a') : a = a' := by
  obtain ⟨n, h⟩ := h
  obtain ⟨m, h'⟩ := h'
  have heq := (h (max n m) (le_max_left n m)).symm.trans (h' (max n m) (le_max_right n m))
  simpa using heq

end Yields

theorem Crashes.bind {p : ℕ → Locking μ α} {q : ℕ → α → Locking μ β} (hp : Crashes p held) :
    Crashes (fun bound ↦ p bound >>= q bound) held := by
  obtain ⟨n, hp⟩ := hp
  exact ⟨n, fun bound hbound ↦ bind_of_error (hp bound hbound) _⟩

section Each

variable (run : ℕ → ω → σ → Locking μ σ)

/-- What holds of each call in the state that it finds. -/
def Throughout (P : σ → ω → Prop) : σ → List ω → Prop
  | _, [] => True
  | s, call :: calls => P s call ∧
      ∀ s', Yields (fun bound ↦ run bound call s) ∅ s' → Throughout P s' calls

variable {run} {P : σ → ω → Prop} {Inv : σ → Prop}

theorem Throughout.cons {s s' : σ} {call : ω} {calls : List ω} (hcall : P s call)
    (hrun : Yields (fun bound ↦ run bound call s) ∅ s') (h : Throughout run P s' calls) :
    Throughout run P s (call :: calls) := by
  refine ⟨hcall, fun s₁ hrun₁ ↦ ?_⟩
  rwa [hrun₁.unique hrun]

theorem Throughout.and {Q : σ → ω → Prop} {s : σ} {calls : List ω} (h : Throughout run P s calls)
    (h' : Throughout run Q s calls) :
    Throughout run (fun s call ↦ P s call ∧ Q s call) s calls := by
  induction calls generalizing s with
  | nil => trivial
  | cons call calls ih =>
      exact ⟨⟨h.1, h'.1⟩, fun s' hrun ↦ ih (h.2 s' hrun) (h'.2 s' hrun)⟩

end Each

end HavokMud.Interaction.Locking
