import HavokMud.Interaction.Histories
import Mathlib.Logic.Function.Basic

/-!
# The flag of a lock

`LinkedListLock` sets the flag of a list when it has the mutex.  `LinkedListUnlock` gives up the
mutex first and clears the flag then, when another thread may have locked the list.  The mutex and
the flag of one list are followed through the single steps of any number of threads.
-/

namespace HavokMud.LinkedList

open Interaction

/-- Where a thread is.  A thread that holds the list has returned from `LinkedListLock`. -/
inductive Phase
  | outside
  | locking
  | entered
  | holding
  | leaving
  | released
  /-- It waits for the mutex that it holds. -/
  | relocking
deriving DecidableEq

/-- A thread in one of these phases has the mutex. -/
def Phase.owns : Phase → Bool
  | entered | holding | leaving | relocking => true
  | outside | locking | released => false

/-- The mutex and the flag of a list, and the threads that use it. -/
structure LockState (θ : Type) where
  mutex : Option θ
  locked : Bool
  phase : θ → Phase

/-- A thread takes one step of `LinkedListLock`, of `LinkedListUnlock`, or of the part of
`objectExtractLocked` that decides whether to lock. -/
inductive LockEvent (θ : Type)
  | callLock (t : θ)
  | lockMutex (t : θ)
  | setFlag (t : θ)
  | callUnlock (t : θ)
  | unlockMutex (t : θ)
  | clearFlag (t : θ)
  | extract (t : θ)

namespace LockState

variable {θ : Type} [DecidableEq θ]

/-- After `LinkedListCreate`. -/
def create : LockState θ :=
  ⟨none, false, fun _ ↦ .outside⟩

/-- `LinkedListIsLocked`. -/
def isLocked (s : LockState θ) : Bool :=
  s.locked

/-- A thread is somewhere else. -/
def move (s : LockState θ) (t : θ) (phase : Phase) : LockState θ :=
  { s with phase := Function.update s.phase t phase }

/-- A thread goes from one phase to another. -/
def go (s : LockState θ) (t : θ) (before after : Phase) : Option (LockState θ) :=
  if s.phase t = before then some (s.move t after) else none

def step (s : LockState θ) : LockEvent θ → Option (LockState θ)
  | .callLock t => s.go t .outside .locking
  | .lockMutex t =>
      if s.mutex = none then { s with mutex := some t }.go t .locking .entered else none
  | .setFlag t => { s with locked := true }.go t .entered .holding
  | .callUnlock t => s.go t .holding .leaving
  | .unlockMutex t => { s with mutex := none }.go t .leaving .released
  | .clearFlag t => { s with locked := false }.go t .released .outside
  | .extract t =>
      match s.phase t with
      | .outside => some (if s.isLocked then s else s.move t .locking)
      | .holding => some (if s.isLocked then s else s.move t .relocking)
      | _ => none

/-- A list that a thread holds is reported as locked. -/
def Truthful (s : LockState θ) : Prop :=
  ∀ t, s.phase t = .holding → s.isLocked = true

/-- The flag is not cleared while a thread holds the list. -/
def Timely (s : LockState θ) : LockEvent θ → Prop
  | .clearFlag _ => ∀ u, s.phase u ≠ .holding
  | _ => True

variable {s s' : LockState θ} {t u : θ} {before after : Phase}

theorem go_eq_some : s.go t before after = some s' ↔ s.phase t = before ∧ s.move t after = s' := by
  unfold go
  split_ifs with h
  · rw [Option.some_inj]
    exact (and_iff_right h).symm
  · exact iff_of_false (fun heq ↦ by cases heq) fun heq ↦ h heq.1

theorem phase_move_self (phase : Phase) : (s.move t phase).phase t = phase :=
  Function.update_self ..

theorem phase_move_of_ne (h : u ≠ t) (phase : Phase) : (s.move t phase).phase u = s.phase u :=
  Function.update_of_ne h ..

/-! ## One step -/

/-- What a step can do. -/
inductive Steps (s : LockState θ) : LockEvent θ → LockState θ → Prop
  | callLock {event : LockEvent θ} (t : θ) : s.Steps event (s.move t .locking)
  | lockMutex (t : θ) : s.mutex = none →
      s.Steps (.lockMutex t) ({ s with mutex := some t }.move t .entered)
  | setFlag (t : θ) : s.phase t = .entered →
      s.Steps (.setFlag t) ({ s with locked := true }.move t .holding)
  | callUnlock (t : θ) : s.phase t = .holding → s.Steps (.callUnlock t) (s.move t .leaving)
  | unlockMutex (t : θ) : s.phase t = .leaving →
      s.Steps (.unlockMutex t) ({ s with mutex := none }.move t .released)
  | clearFlag (t : θ) : s.phase t = .released →
      s.Steps (.clearFlag t) ({ s with locked := false }.move t .outside)
  | trust (t : θ) : s.Steps (.extract t) s
  | relock (t : θ) : s.phase t = .holding → s.isLocked = false →
      s.Steps (.extract t) (s.move t .relocking)

theorem steps_of_step {event : LockEvent θ} (hstep : s.step event = some s') :
    s.Steps event s' := by
  cases event with
  | callLock t =>
      obtain ⟨-, rfl⟩ := go_eq_some.mp hstep
      exact .callLock t
  | lockMutex t =>
      unfold LockState.step at hstep
      dsimp only at hstep
      split_ifs at hstep with hfree
      obtain ⟨-, rfl⟩ := go_eq_some.mp hstep
      exact .lockMutex t hfree
  | setFlag t =>
      obtain ⟨hentered, rfl⟩ := go_eq_some.mp hstep
      exact .setFlag t hentered
  | callUnlock t =>
      obtain ⟨hholding, rfl⟩ := go_eq_some.mp hstep
      exact .callUnlock t hholding
  | unlockMutex t =>
      obtain ⟨hleaving, rfl⟩ := go_eq_some.mp hstep
      exact .unlockMutex t hleaving
  | clearFlag t =>
      obtain ⟨hreleased, rfl⟩ := go_eq_some.mp hstep
      exact .clearFlag t hreleased
  | extract t =>
      unfold LockState.step at hstep
      dsimp only at hstep
      split at hstep
      · obtain rfl := Option.some.inj hstep
        split_ifs
        · exact .trust t
        · exact .callLock t
      · next hholding =>
          obtain rfl := Option.some.inj hstep
          split_ifs with hlocked
          · exact .trust t
          · exact .relock t hholding (Bool.eq_false_iff.mpr hlocked)
      · cases hstep

/-- A thread in a phase after a thread has moved elsewhere. -/
theorem phase_eq_of_move {phase after : Phase} (hphase : after ≠ phase)
    (h : (s.move t after).phase u = phase) : s.phase u = phase := by
  by_cases hu : u = t
  · subst hu
    rw [phase_move_self] at h
    exact absurd h hphase
  · rwa [phase_move_of_ne hu] at h

/-- A step that leaves the flag alone. -/
theorem Truthful.move (h : s.Truthful) {phase : Phase} (hphase : phase ≠ .holding)
    (mutex : Option θ) : ({ s with mutex := mutex }.move t phase).Truthful := by
  intro u hu
  exact h u (phase_eq_of_move (s := { s with mutex := mutex }) hphase hu)

/-- A step keeps the flag truthful, if it is timely. -/
theorem Truthful.step {event : LockEvent θ} (h : s.Truthful) (htimely : s.Timely event)
    (hstep : s.step event = some s') : s'.Truthful := by
  cases steps_of_step hstep with
  | callLock t => exact h.move (by decide) s.mutex
  | lockMutex t _ => exact h.move (by decide) (some t)
  | setFlag t _ => exact fun _ _ ↦ rfl
  | callUnlock t _ => exact h.move (by decide) s.mutex
  | unlockMutex t _ => exact h.move (by decide) none
  | clearFlag t _ =>
      intro u hu
      exact absurd (phase_eq_of_move (by decide) hu) (htimely u)
  | trust t => exact h
  | relock t _ _ => exact h.move (by decide) s.mutex

/-- A step that is not timely leaves a list that is held and reported as free. -/
theorem not_truthful_of_not_timely {event : LockEvent θ} (htimely : ¬ s.Timely event)
    (hstep : s.step event = some s') : ¬ s'.Truthful := by
  cases event with
  | callLock _ | lockMutex _ | setFlag _ | callUnlock _ | unlockMutex _ | extract _ =>
      exact absurd trivial htimely
  | clearFlag t =>
      obtain ⟨hreleased, rfl⟩ := go_eq_some.mp hstep
      unfold Timely at htimely
      push Not at htimely
      obtain ⟨u, hu⟩ := htimely
      have hne : u ≠ t := by
        rintro rfl
        rw [show s.phase u = .released from hreleased] at hu
        cases hu
      intro htruthful
      have hflag := htruthful u ((phase_move_of_ne hne _).trans hu)
      cases hflag

/-! ## The mutex -/

/-- The threads that should have the mutex have it. -/
def Owned (s : LockState θ) : Prop :=
  ∀ t, (s.phase t).owns = true → s.mutex = some t

theorem Owned.move (h : s.Owned) {phase : Phase} (hphase : phase.owns = true → s.mutex = some t)
    (locked : Bool) : ({ s with locked := locked }.move t phase).Owned := by
  intro u hu
  by_cases hut : u = t
  · subst hut
    rw [phase_move_self] at hu
    exact hphase hu
  · rw [phase_move_of_ne hut] at hu
    exact h u hu

theorem Owned.step {event : LockEvent θ} (h : s.Owned) (hstep : s.step event = some s') :
    s'.Owned := by
  cases steps_of_step hstep with
  | callLock t => exact h.move (fun howns ↦ by cases howns) s.locked
  | lockMutex t hfree =>
      intro u hu
      by_cases hut : u = t
      · exact congrArg some hut.symm
      · rw [phase_move_of_ne hut] at hu
        rw [h u hu] at hfree
        cases hfree
  | setFlag t hentered => exact h.move (fun _ ↦ h t (congrArg Phase.owns hentered)) true
  | callUnlock t hholding => exact h.move (fun _ ↦ h t (congrArg Phase.owns hholding)) s.locked
  | unlockMutex t hleaving =>
      intro u hu
      by_cases hut : u = t
      · subst hut
        rw [phase_move_self] at hu
        cases hu
      · rw [phase_move_of_ne hut] at hu
        have hother := (h u hu).symm.trans (h t (congrArg Phase.owns hleaving))
        exact absurd (Option.some.inj hother) hut
  | clearFlag t _ => exact h.move (fun howns ↦ by cases howns) false
  | trust t => exact h
  | relock t hholding _ => exact h.move (fun _ ↦ h t (congrArg Phase.owns hholding)) s.locked

/-- One thread at a time holds the list. -/
theorem holding_unique {events : List (LockEvent θ)} (hrun : runEvents step create events = some s)
    (ht : s.phase t = .holding) (hu : s.phase u = .holding) : t = u := by
  have howned : s.Owned := runEvents_keeps (fun _ _ _ h hstep ↦ Owned.step h hstep)
    (fun _ howns ↦ by cases howns) hrun
  have hsame := (howned t (congrArg Phase.owns ht)).symm.trans (howned u (congrArg Phase.owns hu))
  exact Option.some.inj hsame

/-! ## Runs -/

/-- The flag tells the truth in every state of a run if and only if it is never cleared late. -/
theorem always_truthful_iff {events : List (LockEvent θ)} {last : LockState θ}
    (hrun : runEvents step create events = some last) :
    Always step create Truthful events ↔ AtEveryStep step create Timely events :=
  always_iff_atEveryStep (fun _ _ _ htruthful htimely hstep ↦ htruthful.step htimely hstep)
    (fun _ _ _ htimely hstep ↦ not_truthful_of_not_timely htimely hstep)
    (fun _ hholding ↦ by cases hholding) hrun

/-- A thread that waits for its own mutex has read the flag of the list it held. -/
theorem relocking_cases {event : LockEvent θ} (hstep : s.step event = some s')
    (h : s'.phase t = .relocking) :
    s.phase t = .relocking ∨ s.phase t = .holding ∧ s.isLocked = false := by
  cases steps_of_step hstep with
  | callLock _ | lockMutex _ _ | setFlag _ _ | callUnlock _ _ | unlockMutex _ _
  | clearFlag _ _ => exact .inl (phase_eq_of_move (by decide) h)
  | trust _ => exact .inl h
  | relock u hholding hfree =>
      by_cases htu : t = u
      · subst htu
        exact .inr ⟨hholding, hfree⟩
      · rw [phase_move_of_ne htu] at h
        exact .inl h

/-- While the flag tells the truth, no thread waits for its own mutex. -/
theorem never_relocking {events : List (LockEvent θ)}
    (htimely : AtEveryStep step create Timely events) :
    Always step create (fun s ↦ s.Truthful ∧ ∀ t, s.phase t ≠ .relocking) events := by
  refine always_of_atEveryStep ?_ ?_ htimely
  · rintro s event s' ⟨htruthful, hnever⟩ hgood hstep
    refine ⟨htruthful.step hgood hstep, ?_⟩
    intro t ht
    rcases relocking_cases hstep ht with hrelocking | ⟨hholding, hfree⟩
    · exact hnever t hrelocking
    · rw [htruthful t hholding] at hfree
      cases hfree
  · exact ⟨fun _ hholding ↦ (by cases hholding), fun _ hrelocking ↦ (by cases hrelocking)⟩

end LockState

/-- Two threads hold the list one after the other. -/
def twice : List (LockEvent (Fin 2)) :=
  [.callLock 0, .lockMutex 0, .setFlag 0, .callUnlock 0, .unlockMutex 0, .clearFlag 0,
    .callLock 1, .lockMutex 1, .setFlag 1]

theorem always_truthful_twice :
    (runEvents LockState.step LockState.create twice).isSome = true ∧
      (Always LockState.step LockState.create LockState.Truthful twice ↔
        AtEveryStep LockState.step LockState.create LockState.Timely twice) := by
  have hsome : (runEvents LockState.step LockState.create twice).isSome = true := by decide
  obtain ⟨last, hrun⟩ := Option.isSome_iff_exists.mp hsome
  exact ⟨hsome, LockState.always_truthful_iff hrun⟩

/-- The second thread has returned from `LinkedListLock` when the first one clears the flag. -/
def lateClear : List (LockEvent (Fin 2)) :=
  [.callLock 0, .lockMutex 0, .setFlag 0, .callUnlock 0, .callLock 1, .unlockMutex 0,
    .lockMutex 1, .setFlag 1, .clearFlag 0]

/-- The list is held and is reported as free, and its holder locks it again when it extracts an
object. -/
theorem late_clear : ∃ s s' : LockState (Fin 2),
    runEvents LockState.step LockState.create lateClear = some s ∧
      s.phase 1 = .holding ∧ s.isLocked = false ∧
      ¬ Always LockState.step LockState.create LockState.Truthful lateClear ∧
      s.step (.extract 1) = some s' ∧ s'.phase 1 = .relocking := by
  let s : LockState (Fin 2) :=
    (runEvents LockState.step LockState.create lateClear).getD LockState.create
  have hrun : runEvents LockState.step LockState.create lateClear = some s := rfl
  have hholding : s.phase 1 = .holding := by decide
  have hfree : s.isLocked = false := by decide
  refine ⟨s, s.move 1 .relocking, hrun, hholding, hfree, ?_, rfl, by decide⟩
  intro htruthful
  have hlocked := htruthful lateClear [] s (List.append_nil _).symm hrun 1 hholding
  rw [hfree] at hlocked
  cases hlocked

end HavokMud.LinkedList
