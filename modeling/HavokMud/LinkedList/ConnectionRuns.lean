import HavokMud.LinkedList.Connections

/-!
# The connections in a run

A connection that `connRemove` takes off the list is still counted.  The loop over the list goes on
from a connection that is still there, but a player may be disconnected after the connection was
freed.
-/

namespace HavokMud.LinkedList

open Interaction

variable {ι : Type} [DecidableEq ι]

namespace ConnState

variable {s s' : ConnState ι} {i : ι}

/-- Either a freed connection was used, or the list is known. -/
def Coherent (s : ConnState ι) : Prop :=
  s.fault = true ∨ s.Tracked

theorem Coherent.step {event : ConnEvent ι} (h : s.Coherent) (hstep : s.step event = some s') :
    s'.Coherent := by
  rcases h with hfault | htracked
  · rw [(step_cases hstep).1] at hfault
    cases hfault
  · by_cases hcurrent : s.Current event
    · exact .inr (htracked.step hcurrent hstep)
    · exact .inl (fault_of_not_current hcurrent hstep)

theorem tracked_create : (create : ConnState ι).Tracked :=
  ⟨[], tracks_create, fun _ _ hloop ↦ by cases hloop⟩

theorem Tracked.fault (h : s.Tracked) : s.fault = false := by
  obtain ⟨conns, h, -⟩ := h
  exact h.fault

/-- No connection has been removed. -/
structure Untouched (s : ConnState ι) : Prop where
  freed : s.freed = []
  disconnected : ∀ i, s.disconnected i = false
  fault : s.fault = false

theorem Coherent.sound_iff (h : s.Coherent) : s.Sound ↔ s.Untouched := by
  rcases h with hfault | ⟨conns, h, -⟩
  · constructor
    · rintro ⟨-, hsound⟩
      rw [hfault] at hsound
      cases hsound
    · intro huntouched
      rw [huntouched.fault] at hfault
      cases hfault
  · rw [h.sound_iff]
    refine ⟨fun hfreed ↦ ⟨hfreed, ?_, h.fault⟩, fun huntouched ↦ huntouched.freed⟩
    refine fun i ↦ Bool.eq_false_iff.mpr fun hi ↦ ?_
    have hmem := h.disconnected i hi
    rw [hfreed] at hmem
    cases hmem

theorem Untouched.advance (h : s.Untouched) (item : Option ι) (fdCount : ℤ) :
    (s.advance item fdCount).Untouched := by
  unfold ConnState.advance
  split
  · exact ⟨h.freed, h.disconnected, h.fault⟩
  · rw [if_neg (by simp [h.freed])]
    exact ⟨h.freed, h.disconnected, h.fault⟩

theorem Untouched.of_advance {item : Option ι} {fdCount : ℤ}
    (h : (s.advance item fdCount).Untouched) : s.Untouched := by
  unfold ConnState.advance at h
  split at h
  · exact ⟨h.freed, h.disconnected, h.fault⟩
  · split_ifs at h
    · cases h.fault
    · exact ⟨h.freed, h.disconnected, h.fault⟩

theorem fault_or_freed_connRemove (i : ι) (s : ConnState ι) :
    (s.connRemove i).1.fault = true ∨ (s.connRemove i).1.freed ≠ [] := by
  unfold connRemove
  split_ifs
  · exact .inl rfl
  · exact .inr (List.cons_ne_nil i s.freed)

/-- A turn keeps all connections or removes one. -/
theorem Untouched.turn (h : s.Untouched) (i : ι) (fdCount : ℤ) {ready : Ready}
    (hremoves : ready.removes = false) : (s.turn i fdCount ready).Untouched := by
  have hkick : s.connKickOutput i ready.output = s := by
    unfold ConnState.connKickOutput
    rw [h.disconnected i]
    simp
  have hfreed : i ∉ s.freed := by simp [h.freed]
  rcases turn_cases hfreed fdCount ready with ⟨htrue, -⟩ | ⟨-, left, hturn⟩
  · rw [hremoves] at htrue
    cases htrue
  · rw [hkick, or_self] at hturn
    rw [hturn]
    exact h.advance (some i) left

theorem not_untouched_turn (s : ConnState ι) (i : ι) (fdCount : ℤ) {ready : Ready}
    (hremoves : ready.removes = true) : ¬ (s.turn i fdCount ready).Untouched := by
  intro h
  by_cases hfreed : i ∈ s.freed
  · unfold ConnState.turn at h
    rw [if_pos hfreed] at h
    cases h.fault
  · rcases turn_cases hfreed fdCount ready with ⟨-, left, hturn⟩ | ⟨hfalse, -⟩
    · rw [hturn] at h
      have hremove := h.of_advance
      rcases fault_or_freed_connRemove i s with hfault | hne
      · rw [hremove.fault] at hfault
        cases hfault
      · exact hne hremove.freed
    · rw [hremoves] at hfalse
      cases hfalse

theorem Untouched.step {event : ConnEvent ι} (h : s.Untouched) (hremoves : event.removes = false)
    (hstep : s.step event = some s') : s'.Untouched := by
  obtain ⟨-, ⟨i, rfl, -, -, rfl⟩ | ⟨fdCount, rfl, -, -, rfl⟩ |
    ⟨ready, i, fdCount, rfl, -, -, rfl⟩ | ⟨rfl, rfl⟩ | ⟨i, rfl, -⟩⟩ := step_cases hstep
  · exact ⟨h.freed, h.disconnected, h.fault⟩
  · exact h.advance none fdCount
  · exact h.turn i fdCount hremoves
  · exact ⟨h.freed, h.disconnected, h.fault⟩
  · cases hremoves

theorem not_untouched_of_removes {event : ConnEvent ι} (hremoves : event.removes = true)
    (hstep : s.step event = some s') : ¬ s'.Untouched := by
  obtain ⟨-, ⟨i, rfl, -⟩ | ⟨fdCount, rfl, -⟩ | ⟨ready, i, fdCount, rfl, -, -, rfl⟩ | ⟨rfl, -⟩ |
    ⟨i, rfl, -, -, rfl⟩⟩ := step_cases hstep
  · cases hremoves
  · cases hremoves
  · exact not_untouched_turn s i fdCount hremoves
  · cases hremoves
  · intro h
    rcases fault_or_freed_connRemove i s with hfault | hne
    · exact absurd (hfault.symm.trans h.fault) (by decide)
    · exact hne h.freed

/-- The list is well formed and no freed connection is used in a run if and only if the run removes
no connection.  No freed connection is used if and only if no removed connection is closed. -/
theorem always_sound_iff {events : List (ConnEvent ι)} {last : ConnState ι}
    (hrun : runEvents step create events = some last) :
    (Always step create Sound events ↔ ∀ event ∈ events, event.removes = false) ∧
      (Always step create (fun s ↦ s.fault = false) events ↔
        AtEveryStep step create Current events) := by
  have hcoherent : (create : ConnState ι).Coherent := .inr tracked_create
  have hstep : ∀ (s : ConnState ι) event s', s.Coherent → s.step event = some s' → s'.Coherent :=
    fun _ _ _ h hstep ↦ h.step hstep
  constructor
  · calc Always step create Sound events
      _ ↔ Always step create Untouched events :=
        always_congr hstep hcoherent (fun s h ↦ h.sound_iff) events
      _ ↔ AtEveryStep step create (fun _ event ↦ event.removes = false) events :=
        always_iff_atEveryStep (fun _ _ _ h hkeeps hstep ↦ h.step hkeeps hstep)
          (fun _ _ _ hremoves hstep ↦ not_untouched_of_removes (by simpa using hremoves) hstep)
          ⟨rfl, fun _ ↦ rfl, rfl⟩ hrun
      _ ↔ ∀ event ∈ events, event.removes = false :=
        atEveryStep_iff_forall hrun fun event ↦ event.removes = false
  · calc Always step create (fun s ↦ s.fault = false) events
      _ ↔ Always step create Tracked events := by
        refine always_congr hstep hcoherent (fun s h ↦ ⟨fun hfault ↦ ?_, Tracked.fault⟩) events
        rcases h with hfault' | htracked
        · rw [hfault] at hfault'
          cases hfault'
        · exact htracked
      _ ↔ AtEveryStep step create Current events :=
        always_iff_atEveryStep (fun _ _ _ h hcurrent hstep ↦ h.step hcurrent hstep)
          (fun _ _ _ hcurrent hstep htracked ↦ by
            have hfault := fault_of_not_current hcurrent hstep
            rw [htracked.fault] at hfault
            cases hfault)
          tracked_create hrun

end ConnState

/-- Some data are read. -/
def someData : Ready :=
  { except := false, read := true, write := false, space := true, eof := false, output := false }

def endOfFile : Ready :=
  { someData with eof := true }

def outOfBand : Ready :=
  { someData with except := true, read := false }

/-- A connection is accepted and has data, which are read. -/
def oneConnection : List (ConnEvent ℕ) :=
  [.accept 0, .select 1, .turn someData, .leave]

theorem always_sound_oneConnection :
    (Always ConnState.step ConnState.create ConnState.Sound oneConnection ↔
        ∀ event ∈ oneConnection, event.removes = false) ∧
      (Always ConnState.step ConnState.create (fun s ↦ s.fault = false) oneConnection ↔
        AtEveryStep ConnState.step ConnState.create ConnState.Current oneConnection) := by
  have hsome : (runEvents ConnState.step ConnState.create oneConnection).isSome = true := by
    decide
  obtain ⟨last, hrun⟩ := Option.isSome_iff_exists.mp hsome
  exact ConnState.always_sound_iff hrun

/-- A connection is accepted and has an exception. -/
def exception : List (ConnEvent ℕ) :=
  [.accept 0, .select 1, .turn outOfBand]

/-- A player asks to leave and closes the socket, and the loop finds the end of the file before the
login thread disconnects the player. -/
def goodbye : List (ConnEvent ℕ) :=
  [.accept 0, .select 1, .turn someData, .leave,
    .select 1, .turn endOfFile, .leave, .close 0]

/-- The empty list has one item, and the connection of the second player is used after it was
freed. -/
theorem removed_connections : ∃ s s' : ConnState ℕ,
    runEvents ConnState.step ConnState.create exception = some s ∧
      s.heap.head () = none ∧ s.heap.items () = 1 ∧
      ¬ Always ConnState.step ConnState.create ConnState.Sound exception ∧
      runEvents ConnState.step ConnState.create goodbye = some s' ∧ s'.fault = true := by
  let s : ConnState ℕ :=
    (runEvents ConnState.step ConnState.create exception).getD ConnState.create
  let s' : ConnState ℕ :=
    (runEvents ConnState.step ConnState.create goodbye).getD ConnState.create
  have hrun : runEvents ConnState.step ConnState.create exception = some s := rfl
  have hhead : s.heap.head () = none := by decide
  have hitems : s.heap.items () = 1 := by decide
  refine ⟨s, s', hrun, hhead, hitems, ?_, rfl, by decide⟩
  intro halways
  obtain ⟨⟨conns, hlist⟩, -⟩ := halways exception [] s (List.append_nil _).symm hrun
  have hconns : conns = [] := by
    rw [← List.head?_eq_none_iff, ← hlist.forward.head_eq]
    exact hhead
  have hcount := hlist.items
  rw [hitems, hconns] at hcount
  cases hcount

end HavokMud.LinkedList
