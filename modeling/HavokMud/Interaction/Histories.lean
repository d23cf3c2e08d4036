import Mathlib.Data.Option.Basic
import Mathlib.Data.List.Induction

/-!
# Histories

A machine takes one event after the other.  What holds in every state of a run, and what holds at
every step of it, is compared through single steps.
-/

namespace HavokMud.Interaction

variable {σ ε : Type}

/-- One event after the other. -/
def runEvents (step : σ → ε → Option σ) (s : σ) (events : List ε) : Option σ :=
  events.foldlM step s

/-- What holds in every state that a run comes to. -/
def Always (step : σ → ε → Option σ) (s : σ) (P : σ → Prop) (events : List ε) : Prop :=
  ∀ before after s', events = before ++ after → runEvents step s before = some s' → P s'

/-- What holds at every step of a run, where the step is taken. -/
def AtEveryStep (step : σ → ε → Option σ) (s : σ) (P : σ → ε → Prop) (events : List ε) : Prop :=
  ∀ before event after s', events = before ++ event :: after →
    runEvents step s before = some s' → P s' event

variable {step : σ → ε → Option σ} {s s' : σ} {P P' R : σ → Prop} {Q Q' : σ → ε → Prop}
  {events : List ε}

theorem runEvents_append (first second : List ε) : runEvents step s (first ++ second) =
    (runEvents step s first).bind fun s' ↦ runEvents step s' second := by
  unfold runEvents
  rw [List.foldlM_append]
  rfl

theorem runEvents_cons (event : ε) (events : List ε) : runEvents step s (event :: events) =
    (step s event).bind fun s' ↦ runEvents step s' events := by
  unfold runEvents
  rw [List.foldlM_cons]
  rfl

theorem runEvents_concat (events : List ε) (event : ε) : runEvents step s (events ++ [event]) =
    (runEvents step s events).bind fun s' ↦ step s' event := by
  rw [runEvents_append]
  congr 1
  funext s'
  rw [runEvents_cons]
  exact Option.bind_fun_some _

/-- What every step keeps holds after a run. -/
theorem runEvents_keeps (hstep : ∀ s event s', P s → step s event = some s' → P s') (hs : P s)
    (hrun : runEvents step s events = some s') : P s' := by
  induction events generalizing s with
  | nil =>
      obtain rfl := Option.some.inj hrun
      exact hs
  | cons event events ih =>
      rw [runEvents_cons] at hrun
      obtain ⟨next, hnext, hrest⟩ := Option.bind_eq_some_iff.mp hrun
      exact ih (hstep s event next hs hnext) hrest

/-- Two properties of steps that agree where an invariant holds. -/
theorem atEveryStep_congr (hstep : ∀ s event s', P s → step s event = some s' → P s') (hs : P s)
    (hsame : ∀ s event, P s → (Q s event ↔ Q' s event)) (events : List ε) :
    AtEveryStep step s Q events ↔ AtEveryStep step s Q' events := by
  have hone : ∀ before s' event, runEvents step s before = some s' → (Q s' event ↔ Q' s' event) :=
    fun _ s' event hrun ↦ hsame s' event (runEvents_keeps hstep hs hrun)
  constructor
  · intro h before event after s' hevents hrun
    exact (hone before s' event hrun).mp (h before event after s' hevents hrun)
  · intro h before event after s' hevents hrun
    exact (hone before s' event hrun).mpr (h before event after s' hevents hrun)

/-- Two properties of states that agree where an invariant holds. -/
theorem always_congr (hstep : ∀ s event s', R s → step s event = some s' → R s') (hs : R s)
    (hsame : ∀ s, R s → (P s ↔ P' s)) (events : List ε) :
    Always step s P events ↔ Always step s P' events := by
  constructor
  · intro h before after s' hevents hrun
    exact (hsame s' (runEvents_keeps hstep hs hrun)).mp (h before after s' hevents hrun)
  · intro h before after s' hevents hrun
    exact (hsame s' (runEvents_keeps hstep hs hrun)).mpr (h before after s' hevents hrun)

/-- A property of the events alone. -/
theorem atEveryStep_iff_forall (hrun : runEvents step s events = some s') (good : ε → Prop) :
    AtEveryStep step s (fun _ event ↦ good event) events ↔ ∀ event ∈ events, good event := by
  constructor
  · intro h event hmem
    obtain ⟨before, after, rfl⟩ := List.append_of_mem hmem
    rw [runEvents_append] at hrun
    obtain ⟨s₁, hbefore, -⟩ := Option.bind_eq_some_iff.mp hrun
    exact h before event after s₁ rfl hbefore
  · rintro h before event after s₁ rfl -
    exact h event (List.mem_append_right before List.mem_cons_self)

/-- A property of states that good steps keep. -/
theorem always_of_atEveryStep
    (hkeeps : ∀ s event s', P s → Q s event → step s event = some s' → P s') (hs : P s)
    (h : AtEveryStep step s Q events) : Always step s P events := by
  intro before
  induction before using List.reverseRecOn with
  | nil =>
      intro after s' _ hrun
      obtain rfl := Option.some.inj hrun
      exact hs
  | append_singleton before event ih =>
      intro after s' hevents hrun
      rw [runEvents_concat] at hrun
      obtain ⟨s₁, hbefore, hlast⟩ := Option.bind_eq_some_iff.mp hrun
      have hsplit : events = before ++ event :: after := by
        rw [hevents, List.append_assoc]
        rfl
      exact hkeeps s₁ event s' (ih _ s₁ hsplit hbefore) (h before event after s₁ hsplit hbefore)
        hlast

/-- A property of states that good steps keep and all other steps break. -/
theorem always_iff_atEveryStep
    (hkeeps : ∀ s event s', P s → Q s event → step s event = some s' → P s')
    (hbreaks : ∀ s event s', ¬ Q s event → step s event = some s' → ¬ P s') (hs : P s)
    (hrun : runEvents step s events = some s') :
    Always step s P events ↔ AtEveryStep step s Q events := by
  refine ⟨?_, always_of_atEveryStep hkeeps hs⟩
  intro h before event after s₁ hevents hbefore
  rw [hevents, runEvents_append, hbefore, Option.bind_some, runEvents_cons] at hrun
  obtain ⟨s₂, hstep, -⟩ := Option.bind_eq_some_iff.mp hrun
  have hafter : runEvents step s (before ++ [event]) = some s₂ := by
    rw [runEvents_concat, hbefore]
    exact hstep
  by_contra hbad
  apply hbreaks s₁ event s₂ hbad hstep
  apply h (before ++ [event]) after s₂ _ hafter
  rw [hevents, List.append_assoc]
  rfl

end HavokMud.Interaction
