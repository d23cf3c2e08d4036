import HavokMud.Interaction.Histories
import HavokMud.Interaction.Tally

/-!
# The way of output to a socket

`SendOutput` puts a buffer into the queue of a player and kicks the output.  A kick moves the next
buffer into `outBufDesc`, from where the connection thread writes it when the socket is ready, to
kick the output again.  Nothing keeps two kicks apart: each of their accesses to `outBufDesc` is a
step of its own.
-/

namespace HavokMud.Output

open Interaction

/-- `OutputBuffer_t`, and whether `SendOutputRaw` made it. -/
structure OutputBuffer where
  buf : List UInt8
  raw : Bool
deriving DecidableEq

/-- How far a thread is in `connKickOutput`. -/
inductive Kick
  | idle
  | begun
  /-- `outBufDesc` was NULL. -/
  | checked
  /-- `bufDesc` came from the queue. -/
  | holding (bufDesc : Option OutputBuffer)
deriving DecidableEq

/-- The output of one player, with what was sent and what was passed to `write`, and how many bytes
of it were taken. -/
structure OutState (ι : Type) where
  outputQ : List OutputBuffer
  outBufDesc : Option OutputBuffer
  /-- The socket is in `saveWriteFds`. -/
  inWriteFds : Bool
  /-- The state is `STATE_DISCONNECT`. -/
  disconnecting : Bool
  closed : Bool
  kicks : ι → Kick
  sent : List OutputBuffer
  written : List (OutputBuffer × ℕ)

/-- A thread sends, or goes on with its kick; the socket takes so many bytes; or the player is to be
disconnected. -/
inductive OutEvent (ι : Type)
  | sendOutput (t : ι) (buf : List UInt8)
  | sendOutputRaw (t : ι) (string : List UInt8)
  | kick (t : ι)
  | writable (count : ℕ)
  | disconnect

/-- The buffer in the hand of a kick. -/
def Kick.held : Kick → Option OutputBuffer
  | .holding bufDesc => bufDesc
  | _ => none

namespace OutState

variable {ι : Type}

/-- A new connection. -/
def create : OutState ι :=
  ⟨[], none, false, false, false, fun _ ↦ .idle, [], []⟩

/-- `QueueEnqueueItem`. -/
def enqueue (s : OutState ι) (outbuf : OutputBuffer) : OutState ι :=
  { s with
    outputQ := s.outputQ ++ [outbuf]
    sent := s.sent ++ [outbuf] }

/-- The connection thread writes what there is. -/
def writeOut (s : OutState ι) (count : ℕ) : OutState ι :=
  match s.outBufDesc with
  | none => s
  | some bufDesc =>
      { s with
        outBufDesc := none
        written := s.written ++ [(bufDesc, count)] }

/-! ## Kicks that do not overlap -/

/-- Where one thread is in a kick, the others neither send nor write. -/
def Serial (s : OutState ι) : OutEvent ι → Prop
  | .kick _ | .disconnect => True
  | _ => ∀ t, s.kicks t = .idle

/-- What a kick has found, where no other thread is in one. -/
def PhaseOk (s : OutState ι) : Kick → Prop
  | .idle => s.outBufDesc = none → ∀ outbuf ∈ s.outputQ, outbuf.raw = true
  | .begun => True
  | .checked => s.outBufDesc = none
  | .holding none => s.outBufDesc = none ∧ s.outputQ = []
  | .holding (some _) => s.outBufDesc = none

/-- At most the thread `t` is in a kick.  What was sent is written, or on its way in this order. -/
structure OrderlyAt (s : OutState ι) (t : ι) : Prop where
  others : ∀ u, u ≠ t → s.kicks u = .idle
  order : s.sent = s.written.map Prod.fst ++
    (s.outBufDesc.toList ++ ((s.kicks t).held.toList ++ s.outputQ))
  phase : s.PhaseOk (s.kicks t)
  flagged : s.outBufDesc.isSome = true → s.inWriteFds = true
  ended : s.closed = true → s.outBufDesc = none ∧ s.outputQ = [] ∧ s.kicks t = .idle

def Orderly (s : OutState ι) : Prop :=
  ∃ t, s.OrderlyAt t

variable {s s' : OutState ι} {t u : ι}

/-- Where all kicks are done, it is any thread's turn. -/
theorem OrderlyAt.turn (h : s.OrderlyAt t) (hidle : ∀ u, s.kicks u = .idle) (u : ι) :
    s.OrderlyAt u := by
  have hsame : s.kicks u = s.kicks t := (hidle u).trans (hidle t).symm
  refine ⟨fun v _ ↦ hidle v, ?_, ?_, h.flagged, ?_⟩
  · rw [hsame]
    exact h.order
  · rw [hsame]
    exact h.phase
  · rw [hsame]
    exact h.ended

/-- Raw output is not kicked. -/
theorem OrderlyAt.enqueueRaw (h : s.OrderlyAt t) (hidle : s.kicks t = .idle)
    (hopen : s.closed = false) (string : List UInt8) :
    (s.enqueue ⟨string, true⟩).OrderlyAt t := by
  have horder := h.order
  have hphase := h.phase
  rw [hidle] at horder hphase
  refine ⟨h.others, ?_, ?_, h.flagged, fun hclosed ↦ ?_⟩
  · change s.sent ++ _ = s.written.map Prod.fst ++
      (s.outBufDesc.toList ++ ((s.kicks t).held.toList ++ (s.outputQ ++ _)))
    rw [horder, hidle]
    simp [Kick.held]
  · change (s.enqueue _).PhaseOk (s.kicks t)
    rw [hidle]
    intro hnone outbuf hmem
    rcases List.mem_append.mp hmem with hold | hnew
    · exact hphase hnone outbuf hold
    · rw [List.mem_singleton.mp hnew]
  · have hclosed' : s.closed = true := hclosed
    rw [hopen] at hclosed'
    cases hclosed'

variable [DecidableEq ι]

def setKick (s : OutState ι) (t : ι) (kick : Kick) : OutState ι :=
  { s with kicks := Function.update s.kicks t kick }

/-- The next statement of `connKickOutput`. -/
def kickOutput (s : OutState ι) (t : ι) : Kick → Option (OutState ι)
  | .idle => none
  | .begun =>
      if s.outBufDesc.isSome then some ({ s with inWriteFds := true }.setKick t .idle)
      else some (s.setKick t .checked)
  | .checked =>
      some ({ s with outputQ := s.outputQ.tail }.setKick t (.holding s.outputQ.head?))
  | .holding none =>
      some ({ s with
        inWriteFds := s.inWriteFds && s.outBufDesc.isSome
        outBufDesc := none
        closed := s.disconnecting }.setKick t .idle)
  | .holding (some bufDesc) =>
      some ({ s with
        inWriteFds := true
        outBufDesc := some bufDesc }.setKick t .idle)

/-- One step.  A thread waits where the queue is full, and nothing happens after the connection is
closed. -/
def step (conn : ι) (room : ℕ) (s : OutState ι) (event : OutEvent ι) : Option (OutState ι) :=
  if s.closed then none
  else match event with
    | .sendOutput t buf =>
        if s.kicks t = .idle ∧ s.outputQ.length < room then
          some ((s.enqueue ⟨buf, false⟩).setKick t .begun)
        else none
    | .sendOutputRaw t string =>
        if s.kicks t = .idle ∧ s.outputQ.length < room then
          some (if string = [] then s else s.enqueue ⟨string, true⟩)
        else none
    | .kick t => s.kickOutput t (s.kicks t)
    | .writable count =>
        if s.kicks conn = .idle then some ((s.writeOut count).setKick conn .begun) else none
    | .disconnect => some { s with disconnecting := true }

variable {conn : ι} {room : ℕ} {events : List (OutEvent ι)}

/-- What a step can do. -/
inductive Steps (conn : ι) (room : ℕ) (s : OutState ι) : OutEvent ι → OutState ι → Prop
  | sendOutput {t : ι} (buf : List UInt8) : s.kicks t = .idle → s.outputQ.length < room →
      s.Steps conn room (.sendOutput t buf) ((s.enqueue ⟨buf, false⟩).setKick t .begun)
  | sendNothing {t : ι} : s.Steps conn room (.sendOutputRaw t []) s
  | sendOutputRaw {t : ι} (string : List UInt8) : s.kicks t = .idle → s.outputQ.length < room →
      s.Steps conn room (.sendOutputRaw t string) (s.enqueue ⟨string, true⟩)
  | kick {t : ι} {s' : OutState ι} : s.kickOutput t (s.kicks t) = some s' →
      s.Steps conn room (.kick t) s'
  | writable (count : ℕ) : s.kicks conn = .idle →
      s.Steps conn room (.writable count) ((s.writeOut count).setKick conn .begun)
  | disconnect : s.Steps conn room .disconnect { s with disconnecting := true }

theorem steps_of_step {event : OutEvent ι} (hstep : s.step conn room event = some s') :
    s.closed = false ∧ s.Steps conn room event s' := by
  obtain ⟨hopen, hstep⟩ := Option.ite_none_left_eq_some.mp hstep
  refine ⟨Bool.eq_false_iff.mpr hopen, ?_⟩
  cases event with
  | sendOutput t buf =>
      obtain ⟨⟨hidle, hroom⟩, hstep⟩ := Option.ite_none_right_eq_some.mp hstep
      obtain rfl := Option.some.inj hstep
      exact .sendOutput buf hidle hroom
  | sendOutputRaw t string =>
      obtain ⟨⟨hidle, hroom⟩, hstep⟩ := Option.ite_none_right_eq_some.mp hstep
      obtain rfl := Option.some.inj hstep
      split_ifs with hempty
      · rw [hempty]
        exact .sendNothing
      · exact .sendOutputRaw string hidle hroom
  | kick t => exact .kick hstep
  | writable count =>
      obtain ⟨hidle, hstep⟩ := Option.ite_none_right_eq_some.mp hstep
      obtain rfl := Option.some.inj hstep
      exact .writable count hidle
  | disconnect =>
      obtain rfl := Option.some.inj hstep
      exact .disconnect

@[simp]
theorem kicks_setKick (s : OutState ι) (t : ι) (kick : Kick) :
    (s.setKick t kick).kicks t = kick := by
  simp [setKick]

theorem kicks_setKick_of_ne (s : OutState ι) (kick : Kick) (h : u ≠ t) :
    (s.setKick t kick).kicks u = s.kicks u := by
  simp [setKick, h]

/-- A state that differs in what the thread `t` works on. -/
theorem OrderlyAt.of_setKick {s₁ : OutState ι} {kick : Kick} (hkicks : ∀ u, u ≠ t → s₁.kicks u = .idle)
    (horder : s₁.sent = s₁.written.map Prod.fst ++
      (s₁.outBufDesc.toList ++ (kick.held.toList ++ s₁.outputQ)))
    (hphase : s₁.PhaseOk kick) (hflagged : s₁.outBufDesc.isSome = true → s₁.inWriteFds = true)
    (hover : s₁.closed = true → s₁.outBufDesc = none ∧ s₁.outputQ = [] ∧ kick = .idle) :
    (s₁.setKick t kick).OrderlyAt t := by
  have hself := kicks_setKick s₁ t kick
  refine ⟨?_, ?_, ?_, hflagged, ?_⟩
  · intro u hu
    rw [kicks_setKick_of_ne _ _ hu]
    exact hkicks u hu
  · rw [hself]
    exact horder
  · rw [hself]
    exact hphase
  · rw [hself]
    exact hover

theorem OrderlyAt.kickOutput (h : s.OrderlyAt t) (hopen : s.closed = false)
    (hkick : s.kickOutput t (s.kicks t) = some s') : s'.OrderlyAt t := by
  have hover : ∀ {P : Prop}, s.closed = true → P := by
    intro P hclosed
    rw [hopen] at hclosed
    cases hclosed
  have horder := h.order
  have hphase := h.phase
  cases hcase : s.kicks t with
  | idle =>
      rw [hcase] at hkick
      cases hkick
  | begun =>
      rw [hcase] at hkick horder
      unfold OutState.kickOutput at hkick
      dsimp only at hkick
      split_ifs at hkick with hsome
      · obtain rfl := Option.some.inj hkick
        refine .of_setKick h.others horder ?_ (fun _ ↦ rfl) hover
        intro hnone
        rw [hnone] at hsome
        cases hsome
      · obtain rfl := Option.some.inj hkick
        have hnone : s.outBufDesc = none := by simpa using hsome
        exact .of_setKick h.others horder hnone h.flagged hover
  | checked =>
      rw [hcase] at hkick horder hphase
      have hnone : s.outBufDesc = none := hphase
      obtain rfl := Option.some.inj hkick
      cases hqueue : s.outputQ with
      | nil =>
          rw [hqueue] at horder
          exact .of_setKick h.others horder ⟨hnone, rfl⟩ h.flagged hover
      | cons outbuf rest =>
          rw [hqueue] at horder
          exact .of_setKick h.others horder hnone h.flagged hover
  | holding bufDesc =>
      rw [hcase] at hkick horder hphase
      cases bufDesc with
      | none =>
          obtain ⟨hnone, hempty⟩ : s.outBufDesc = none ∧ s.outputQ = [] := hphase
          obtain rfl := Option.some.inj hkick
          rw [hnone] at horder
          refine .of_setKick h.others horder ?_ (fun hsome ↦ by cases hsome)
            fun _ ↦ ⟨rfl, hempty, rfl⟩
          intro _ outbuf hmem
          rw [hempty] at hmem
          cases hmem
      | some bufDesc =>
          have hnone : s.outBufDesc = none := hphase
          obtain rfl := Option.some.inj hkick
          rw [hnone] at horder
          exact .of_setKick h.others horder (fun hnone ↦ by cases hnone) (fun _ ↦ rfl) hover

theorem OrderlyAt.enqueue (h : s.OrderlyAt t) (hidle : s.kicks t = .idle)
    (outbuf : OutputBuffer) {kick : Kick} (hheld : kick.held = none)
    (hphase : (s.enqueue outbuf).PhaseOk kick) (hopen : s.closed = false) :
    ((s.enqueue outbuf).setKick t kick).OrderlyAt t := by
  have horder := h.order
  rw [hidle] at horder
  refine .of_setKick h.others ?_ hphase h.flagged fun hclosed ↦ ?_
  · change s.sent ++ [outbuf] = _
    rw [horder, hheld]
    simp [OutState.enqueue, Kick.held]
  · rw [show (s.enqueue outbuf).closed = s.closed from rfl, hopen] at hclosed
    cases hclosed

theorem OrderlyAt.writeOut (h : s.OrderlyAt t) (hidle : s.kicks t = .idle)
    (hopen : s.closed = false) (count : ℕ) :
    ((s.writeOut count).setKick t .begun).OrderlyAt t := by
  have horder := h.order
  rw [hidle] at horder
  have hover : ∀ {P : Prop}, s.closed = true → P := by
    intro P hclosed
    rw [hopen] at hclosed
    cases hclosed
  unfold OutState.writeOut
  cases hdesc : s.outBufDesc with
  | none => exact .of_setKick h.others horder trivial h.flagged hover
  | some bufDesc =>
      refine .of_setKick h.others ?_ trivial (fun hsome ↦ by cases hsome) hover
      rw [hdesc] at horder
      simpa [Kick.held] using horder

theorem Orderly.step (h : s.Orderly) {event : OutEvent ι} (hserial : s.Serial event)
    (hstep : s.step conn room event = some s') : s'.Orderly := by
  obtain ⟨t, h⟩ := h
  obtain ⟨hopen, hsteps⟩ := steps_of_step hstep
  cases hsteps with
  | @sendOutput u buf hidle _ =>
      exact ⟨u, (h.turn hserial u).enqueue hidle _ rfl trivial hopen⟩
  | sendNothing => exact ⟨t, h⟩
  | sendOutputRaw string _ _ => exact ⟨t, h.enqueueRaw (hserial t) hopen string⟩
  | @kick u _ hkick =>
      obtain rfl : u = t := by
        by_contra hne
        rw [h.others u hne] at hkick
        cases hkick
      exact ⟨u, h.kickOutput hopen hkick⟩
  | writable count hidle => exact ⟨conn, (h.turn hserial conn).writeOut hidle hopen count⟩
  | disconnect => exact ⟨t, h.others, h.order, h.phase, h.flagged, h.ended⟩

section Overlap

variable [Fintype ι]

/-- Where the copies of a buffer are. -/
def copies (s : OutState ι) (outbuf : OutputBuffer) : ℕ :=
  (s.written.map Prod.fst).count outbuf + s.outBufDesc.toList.count outbuf +
    tally (fun kick ↦ kick.held = some outbuf) s.kicks + s.outputQ.count outbuf

theorem copies_setKick (s : OutState ι) (t : ι) (kick : Kick) (outbuf : OutputBuffer) :
    (s.setKick t kick).copies outbuf + (s.kicks t).held.toList.count outbuf =
      s.copies outbuf + kick.held.toList.count outbuf := by
  have hcount : ∀ kick : Kick, (decide (kick.held = some outbuf)).toNat =
      kick.held.toList.count outbuf := by
    intro kick
    cases hheld : kick.held with
    | none => rfl
    | some outbuf' => by_cases heq : outbuf' = outbuf <;> simp [heq]
  have htally := tally_update (p := fun kick : Kick ↦ decide (kick.held = some outbuf))
    (f := s.kicks) (t := t) kick
  rw [hcount, hcount] at htally
  simp only [copies, setKick]
  omega

theorem copies_kickOutput (hkick : s.kickOutput t (s.kicks t) = some s') (outbuf : OutputBuffer) :
    s'.sent = s.sent ∧ s'.copies outbuf ≤ s.copies outbuf := by
  cases hcase : s.kicks t with
  | idle =>
      rw [hcase] at hkick
      cases hkick
  | begun =>
      rw [hcase] at hkick
      unfold OutState.kickOutput at hkick
      dsimp only at hkick
      split_ifs at hkick with hsome
      · obtain rfl := Option.some.inj hkick
        have hcopies := copies_setKick { s with inWriteFds := true } t .idle outbuf
        refine ⟨rfl, ?_⟩
        change _ + _ = s.copies outbuf + 0 at hcopies
        omega
      · obtain rfl := Option.some.inj hkick
        have hcopies := copies_setKick s t .checked outbuf
        refine ⟨rfl, ?_⟩
        change _ + _ = s.copies outbuf + 0 at hcopies
        omega
  | checked =>
      rw [hcase] at hkick
      obtain rfl := Option.some.inj hkick
      have hcopies := copies_setKick { s with outputQ := s.outputQ.tail } t
        (.holding s.outputQ.head?) outbuf
      have hsplit : s.outputQ.count outbuf =
          s.outputQ.head?.toList.count outbuf + s.outputQ.tail.count outbuf := by
        rw [← List.count_append]
        cases s.outputQ <;> rfl
      refine ⟨rfl, ?_⟩
      unfold copies at hcopies ⊢
      dsimp only [Kick.held] at hcopies ⊢
      omega
  | holding bufDesc =>
      rw [hcase] at hkick
      cases bufDesc with
      | none =>
          obtain rfl := Option.some.inj hkick
          have hcopies := copies_setKick { s with
            inWriteFds := s.inWriteFds && s.outBufDesc.isSome
            outBufDesc := none
            closed := s.disconnecting } t .idle outbuf
          refine ⟨rfl, ?_⟩
          unfold copies at hcopies ⊢
          dsimp only [Kick.held, Option.toList_none, List.count_nil] at hcopies ⊢
          omega
      | some bufDesc =>
          obtain rfl := Option.some.inj hkick
          have hcopies := copies_setKick { s with
            inWriteFds := true
            outBufDesc := some bufDesc } t .idle outbuf
          refine ⟨rfl, ?_⟩
          unfold copies at hcopies ⊢
          dsimp only at hcopies ⊢
          rw [hcase] at hcopies
          dsimp only [Kick.held, Option.toList_none, List.count_nil] at hcopies ⊢
          omega

omit [DecidableEq ι] in
theorem copies_enqueue (s : OutState ι) (outbuf outbuf' : OutputBuffer) :
    (s.enqueue outbuf').copies outbuf = s.copies outbuf + [outbuf'].count outbuf := by
  simp only [copies, enqueue, List.count_append]
  omega

omit [DecidableEq ι] in
theorem copies_writeOut (s : OutState ι) (count : ℕ) (outbuf : OutputBuffer) :
    (s.writeOut count).sent = s.sent ∧ (s.writeOut count).copies outbuf = s.copies outbuf := by
  unfold writeOut
  cases hdesc : s.outBufDesc with
  | none => exact ⟨rfl, rfl⟩
  | some bufDesc =>
      refine ⟨rfl, ?_⟩
      simp [copies, hdesc]

theorem copies_step {event : OutEvent ι} (h : ∀ outbuf, s.copies outbuf ≤ s.sent.count outbuf)
    (hstep : s.step conn room event = some s') (outbuf : OutputBuffer) :
    s'.copies outbuf ≤ s'.sent.count outbuf := by
  have hs := h outbuf
  have hsent : ∀ outbuf', (s.enqueue outbuf').sent.count outbuf =
      s.sent.count outbuf + [outbuf'].count outbuf := fun _ ↦ List.count_append
  cases (steps_of_step hstep).2 with
  | @sendOutput u buf _ _ =>
      have hcopies := copies_setKick (s.enqueue ⟨buf, false⟩) u .begun outbuf
      rw [copies_enqueue] at hcopies
      change _ + _ = _ + 0 at hcopies
      change _ ≤ (s.enqueue ⟨buf, false⟩).sent.count outbuf
      rw [hsent]
      omega
  | sendNothing => exact hs
  | sendOutputRaw string _ _ =>
      rw [copies_enqueue, hsent]
      omega
  | kick hkick =>
      obtain ⟨hsame, hle⟩ := copies_kickOutput hkick outbuf
      rw [hsame]
      omega
  | writable count _ =>
      obtain ⟨hsame, hcopies'⟩ := copies_writeOut s count outbuf
      have hcopies := copies_setKick (s.writeOut count) conn .begun outbuf
      change _ + _ = _ + 0 at hcopies
      change _ ≤ (s.writeOut count).sent.count outbuf
      rw [hsame]
      omega
  | disconnect => exact hs

/-- Whatever kicks overlap, a buffer is not written more often than it was sent. -/
theorem output_at_most_once (hrun : runEvents (step conn room) create events = some s)
    (outbuf : OutputBuffer) :
    (s.written.map Prod.fst).count outbuf ≤ s.sent.count outbuf := by
  have hcopies := runEvents_keeps (P := fun s ↦ ∀ outbuf, s.copies outbuf ≤ s.sent.count outbuf)
    (fun _ _ _ h hstep ↦ copies_step h hstep) (by simp [copies, create, tally, Kick.held]) hrun
  have hcopy := hcopies outbuf
  unfold copies at hcopy
  omega

/-- Two kicks that overlap. -/
def overlappingEvents : List (OutEvent Bool) :=
  [.sendOutput true [1], .sendOutput false [2], .kick true, .kick false, .kick true, .kick false,
    .kick true, .kick false, .writable 1]

/-- The state after that: one of them has dropped the buffer of the other. -/
def overlapped : OutState Bool :=
  (runEvents (step false 63) create overlappingEvents).getD create

theorem output_at_most_once_overlapped : overlapped.written = [(⟨[2], false⟩, 1)] ∧
    (overlapped.written.map Prod.fst).count ⟨[2], false⟩ ≤ overlapped.sent.count ⟨[2], false⟩ := by
  have hrun : runEvents (step false 63) create overlappingEvents = some overlapped := rfl
  exact ⟨rfl, output_at_most_once hrun ⟨[2], false⟩⟩

end Overlap

end OutState

end HavokMud.Output
