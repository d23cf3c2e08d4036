import HavokMud.Pipeline.Delivery

/-!
# Freed players and waiting threads

When is memory used that was freed, and when do the threads come to a stop?  `InputThread` frees a
player when it takes `CONN_DELETE_CONNECT`, whatever is left of the player elsewhere.  Queues of
limited length and the lock of `ConnectionList` make the threads wait for each other.
-/

namespace HavokMud.Pipeline

open Buffer Queue Input Interaction

/-! ## Players who are freed

Flushing a player takes nothing out of `InputLoginQ`, and nobody asks whether `LoginThread` is busy
with the player.  So memory is used after it was freed exactly if something of the player is left
at that moment, or a connection is closed that was removed before, or a buffer is looked into
between its destruction and the mark. -/

section Lives

variable {π : Type} [DecidableEq π]

/-- No freed memory was used, the buffers are in order, and nothing is on its way to `LoginThread`
for a player who was freed. -/
structure Scene.Safe (v : Scene π) : Prop where
  fault : v.fault = false
  links : ∀ p player, v.players p = some player → player.link.Good
  live : ∀ item ∈ v.pending, v.freed item.player = false

/-- What a step must not run into: a read fails, the next item for `InputThread` is data of a buffer
that was destroyed, or the removal of a player of whom something is left, or `LoginThread` closes a
connection that was removed. -/
def Scene.Careful (v : Scene π) : Event π → Prop
  | .readable p result =>
      ∀ player, v.players p = some player → player.link.Guard (.readable result)
  | .inputTake _ _ => ∀ item ∈ v.connectInputQ.head?, ∀ player,
      v.players item.player = some player →
        (item.type = .inputAvail → player.link.Guard .input) ∧
        (item.type = .deleteConnect → ∀ other ∈ v.pending, other.player ≠ item.player)
  | .loginClose | .loginRemove => ∀ item ∈ v.login.items, v.removed item.player = false
  | _ => True

/-- The machine is safe, with the lists that its queues are. -/
def Machine.Safe (s : Machine π) : Prop :=
  ∀ v, s.Shows v → v.Safe

/-- The machine has nothing to fear of a step, with the lists that its queues are. -/
def Machine.Careful (s : Machine π) (event : Event π) : Prop :=
  ∀ v, s.Shows v → v.Careful event

/-- A safe scene whose announcements are in order and whose buffers have all their memory. -/
structure Scene.Sound (v : Scene π) : Prop where
  orderly : v.Orderly
  fault : v.fault = false
  links : ∀ p player, v.players p = some player → player.link.Inv
  live : ∀ item ∈ v.pending, v.freed item.player = false

omit [DecidableEq π] in
theorem Machine.Shows.unique {s : Machine π} {v v' : Scene π} (h : s.Shows v)
    (h' : s.Shows v') : v = v' := by
  obtain ⟨connectItems, loginItems, hconnect, hlogin, rfl⟩ := h
  obtain ⟨connectItems', loginItems', hconnect', hlogin', rfl⟩ := h'
  rw [hconnect.1.unique hconnect'.1, hlogin.1.unique hlogin'.1]

variable {v v' : Scene π} {event : Event π}

/-- One player is changed and nobody is freed. -/
theorem Scene.Sound.update (h : v.Sound) (horderly : v'.Orderly) {p : π} {player : PlayerStruct}
    (hplayers : v'.players = Function.update v.players p (some player))
    (hfault : v'.fault = false) (hlink : player.link.Inv)
    (hlive : ∀ item ∈ v'.pending, item.player = p ∧ player.freed = false ∨
      item ∈ v.pending ∧ (item.player = p → player.freed = v.freed p)) : v'.Sound where
  orderly := horderly
  fault := hfault
  links q other hq := by
    rw [hplayers] at hq
    rcases update_eq_some hq with ⟨rfl, rfl⟩ | ⟨-, hq⟩
    · exact hlink
    · exact h.links q other hq
  live item hitem := by
    unfold Threads.freed
    rw [hplayers]
    rcases eq_or_ne item.player p with hp | hne
    · rw [hp, Function.update_self]
      rcases hlive item hitem with ⟨-, hfreed⟩ | ⟨hmem, hsame⟩
      · exact hfreed
      · exact (hsame hp).trans (hp ▸ h.live item hmem)
    · rw [Function.update_of_ne hne]
      rcases hlive item hitem with ⟨hp, -⟩ | ⟨hmem, -⟩
      · exact absurd hp hne
      · exact h.live item hmem

/-- No player is changed. -/
theorem Scene.Sound.congr (h : v.Sound) (horderly : v'.Orderly)
    (hplayers : v'.players = v.players) (hfault : v'.fault = false)
    (hpending : ∀ item ∈ v'.pending, item ∈ v.pending) : v'.Sound where
  orderly := horderly
  fault := hfault
  links q other hq := h.links q other (hplayers ▸ hq)
  live item hitem := by
    unfold Threads.freed
    rw [hplayers]
    exact h.live item (hpending item hitem)

omit [DecidableEq π] in
theorem freed_of_some {p : π} {player : PlayerStruct} (hplayer : v.players p = some player) :
    v.freed p = player.freed := by
  unfold Threads.freed
  rw [hplayer]
  rfl

omit [DecidableEq π] in
theorem removed_of_some {p : π} {player : PlayerStruct} (hplayer : v.players p = some player) :
    v.removed p = true ↔ player.link.buffer = none := by
  unfold Threads.removed
  rw [hplayer, Option.bind_some, Option.isNone_iff_eq_none]

theorem inv_mark {player : PlayerStruct} (h : player.link.Inv) : player.mark.link.Inv :=
  ⟨⟨h.wf, h.handed, h.destroyed, h.fault⟩, h.data⟩

theorem Scene.Sound.conn (h : v.Sound) (hcareful : v.Careful event)
    (hmoves : v.ConnMoves event v') : v'.Sound := by
  have horderly := h.orderly.conn hmoves
  cases hmoves with
  | @accept p hconn _ hnew =>
      refine h.update horderly rfl h.fault inv_create fun item hitem ↦ .inr ⟨hitem, fun _ ↦ ?_⟩
      unfold Threads.freed
      rw [hnew]
      rfl
  | @readable p player buffer result link hconn hlogin hplayer hbuffer hread =>
      have hstep : player.link.step (.readable result) = some link := by
        unfold Link.step
        dsimp only
        rw [hbuffer]
        exact hread
      exact h.update horderly rfl h.fault
        ((h.links p player hplayer).step (hcareful player hplayer) hstep)
        fun item hitem ↦ .inr ⟨hitem, fun _ ↦ (freed_of_some hplayer).symm⟩
  | @except p player hconn hlogin hplayer hbuffer =>
      exact h.update horderly rfl h.fault (inv_destroy (h.links p player hplayer))
        fun item hitem ↦ .inr ⟨hitem, fun _ ↦ (freed_of_some hplayer).symm⟩
  | @mark p player hconn hplayer =>
      exact h.update horderly rfl h.fault (inv_mark (h.links p player hplayer))
        fun item hitem ↦ .inr ⟨hitem, fun _ ↦ (freed_of_some hplayer).symm⟩
  | send hconn => exact h.congr horderly rfl h.fault fun item hitem ↦ hitem

omit [DecidableEq π] in
/-- What is new on the way to `LoginThread`. -/
theorem mem_pending_taken {item : InputStateItem π} (hitem : item ∈ v'.pending)
    (hlogin : v'.login = v.login) (hqueue : v'.inputLoginQ = v.inputLoginQ) :
    item ∈ v.pending ∨ item ∈ v'.sending := by
  unfold Scene.pending at hitem ⊢
  rw [hlogin, hqueue] at hitem
  simp only [List.mem_append] at hitem ⊢
  tauto

theorem Scene.Sound.input (h : v.Sound) (hcareful : v.Careful event)
    (hmoves : v.InputMoves event v') : v'.Sound := by
  have horderly := h.orderly.input hmoves
  cases hmoves with
  | @freed before after item rest player hsending hqueue hplayer hfreed =>
      have hnot := (h.orderly.taken hqueue hplayer).1
      rw [hfreed] at hnot
      cases hnot
  | @newConnect before after p rest player hsending hqueue hplayer hfreed =>
      refine h.update horderly rfl h.fault (h.links p player hplayer) fun item hitem ↦ ?_
      rcases (mem_pending_taken hitem rfl rfl : item ∈ v.pending ∨ _) with hmem | hmem
      · exact .inr ⟨hmem, fun _ ↦ (freed_of_some hplayer).symm⟩
      · obtain rfl := List.mem_singleton.mp hmem
        exact .inl ⟨rfl, hfreed⟩
  | @inputAvail before after p rest player hsending hqueue hplayer hfreed =>
      obtain ⟨hfreed', -, hlink⟩ := inputAvail_kept before after player
      have hhead : v.connectInputQ.head? = some ⟨.inputAvail, p⟩ := hqueue ▸ rfl
      have hinv : player.link.input.Inv := (h.links p player hplayer).input
        ((hcareful _ hhead player hplayer).1 rfl)
      rw [← hlink] at hinv
      refine h.update horderly rfl (Bool.or_eq_false_iff.mpr ⟨h.fault, hinv.fault⟩) hinv
        fun item hitem ↦ ?_
      rcases (mem_pending_taken hitem rfl rfl : item ∈ v.pending ∨ _) with hmem | hmem
      · exact .inr ⟨hmem, fun _ ↦ hfreed'.trans (freed_of_some hplayer).symm⟩
      · obtain ⟨line, -, rfl⟩ := List.mem_map.mp hmem
        exact .inl ⟨rfl, hfreed'.trans hfreed⟩
  | @flushInput before after p rest player hsending hqueue hplayer hfreed =>
      obtain ⟨-, ⟨htype, -⟩ | ⟨htype, -⟩ | ⟨htype, -⟩⟩ := h.orderly.taken hqueue hplayer
      all_goals cases htype
  | @deleteConnect before after p rest player hsending hqueue hplayer hfreed =>
      have hhead : v.connectInputQ.head? = some ⟨.deleteConnect, p⟩ := hqueue ▸ rfl
      have hnothing := (hcareful _ hhead player hplayer).2 rfl
      exact h.update horderly rfl h.fault (h.links p player hplayer)
        fun item hitem ↦ .inr ⟨hitem, fun hp ↦ absurd hp (hnothing item hitem)⟩
  | @send item rest hsending =>
      refine h.congr horderly rfl h.fault fun other hother ↦ ?_
      unfold Scene.pending at hother ⊢
      rw [hsending]
      simpa using hother

theorem Scene.Sound.login (h : v.Sound) (hcareful : v.Careful event)
    (hmoves : v.LoginMoves event v') : v'.Sound := by
  have horderly := h.orderly.login hmoves
  have hmine {item : InputStateItem π} (hitem : item ∈ v.login.items) : item ∈ v.pending :=
    List.mem_append_left _ hitem
  cases hmoves with
  | take hlogin hqueue =>
      refine h.congr horderly rfl h.fault fun other hother ↦ ?_
      unfold Scene.pending at hother ⊢
      rw [hlogin, hqueue]
      exact hother
  | @handle item hlogin =>
      have hlive := h.live item (hmine (hlogin ▸ List.mem_singleton_self item))
      exact h.congr horderly rfl (Bool.or_eq_false_iff.mpr ⟨h.fault, hlive⟩)
        fun other hother ↦ List.mem_append_right _ hother
  | @close item hlogin =>
      have hopen := hcareful item (hlogin ▸ List.mem_singleton_self item)
      refine h.congr horderly rfl (Bool.or_eq_false_iff.mpr ⟨h.fault, hopen⟩) fun other hother ↦ ?_
      unfold Scene.pending at hother ⊢
      rw [hlogin]
      exact hother
  | @removed item hlogin hconn hremoved =>
      rw [hcareful item (hlogin ▸ List.mem_singleton_self item)] at hremoved
      cases hremoved
  | @remove item player hlogin hconn hplayer hbuffer =>
      refine h.update horderly rfl h.fault (inv_destroy (h.links _ player hplayer))
        fun other hother ↦ .inr ⟨?_, fun _ ↦ (freed_of_some hplayer).symm⟩
      unfold Scene.pending at hother ⊢
      rw [hlogin]
      exact hother
  | @mark item player hlogin hplayer =>
      refine h.update horderly rfl h.fault (inv_mark (h.links _ player hplayer))
        fun other hother ↦ .inr ⟨?_, fun _ ↦ (freed_of_some hplayer).symm⟩
      unfold Scene.pending at hother ⊢
      rw [hlogin]
      exact hother
  | @send item hlogin =>
      refine h.congr horderly rfl h.fault fun other hother ↦ ?_
      unfold Scene.pending at hother ⊢
      rw [hlogin]
      exact hother

/-- A careful step. -/
theorem Scene.Sound.moves (h : v.Sound) (hcareful : v.Careful event)
    (hmoves : v.Moves event v') : v'.Sound := by
  rcases hmoves with hmoves | hmoves | hmoves
  · exact h.conn hcareful hmoves
  · exact h.input hcareful hmoves
  · exact h.login hcareful hmoves

/-- A step that is not careful. -/
theorem Scene.Sound.spoils (h : v.Sound) (hcareless : ¬ v.Careful event)
    (hmoves : v.Moves event v') : ¬ v'.Safe := by
  intro hsafe
  apply hcareless
  rcases hmoves with hmoves | hmoves | hmoves
  · cases hmoves with
    | @readable p player buffer result link hconn hlogin hplayer hbuffer hread =>
        intro other hother
        obtain rfl := Option.some.inj (hplayer.symm.trans hother)
        by_contra hguard
        refine (h.links p player hplayer).spoils hguard ?_
          (hsafe.links p _ (Function.update_self ..))
        unfold Link.step
        dsimp only
        rw [hbuffer]
        exact hread
    | accept _ _ _ | except _ _ _ _ | mark _ _ | send _ => trivial
  · cases hmoves with
    | freed _ _ _ _ => exact absurd hsafe.fault nofun
    | @newConnect before after p rest player hsending hqueue hplayer hfreed =>
        intro item hitem other hother
        rw [hqueue] at hitem
        obtain rfl := Option.some.inj hitem
        exact ⟨nofun, nofun⟩
    | @inputAvail before after p rest player hsending hqueue hplayer hfreed =>
        intro item hitem other hother
        rw [hqueue] at hitem
        obtain rfl := Option.some.inj hitem
        obtain rfl := Option.some.inj (hplayer.symm.trans hother)
        refine ⟨fun _ ↦ ?_, nofun⟩
        by_contra hguard
        have hgood := hsafe.links p _ (Function.update_self ..)
        rw [(inputAvail_kept before after player).2.2] at hgood
        exact (h.links p player hplayer).spoils hguard rfl hgood
    | @flushInput before after p rest player hsending hqueue hplayer hfreed =>
        obtain ⟨-, ⟨htype, -⟩ | ⟨htype, -⟩ | ⟨htype, -⟩⟩ := h.orderly.taken hqueue hplayer
        all_goals cases htype
    | @deleteConnect before after p rest player hsending hqueue hplayer hfreed =>
        intro item hitem other hother
        rw [hqueue] at hitem
        obtain rfl := Option.some.inj hitem
        refine ⟨nofun, fun _ left hleft hp ↦ ?_⟩
        have hfreed' : Function.update v.players p (some { player with freed := true })
            left.player = some { player with freed := true } :=
          (congrArg _ hp).trans (Function.update_self ..)
        have hlive : (Function.update v.players p (some { player with freed := true })
            left.player).any PlayerStruct.freed = false := hsafe.live left hleft
        rw [hfreed'] at hlive
        cases hlive
    | send _ => trivial
  · cases hmoves with
    | take _ _ | handle _ | mark _ _ | send _ => trivial
    | @close item hlogin =>
        intro other hother
        rw [hlogin] at hother
        obtain rfl := List.mem_singleton.mp hother
        exact (Bool.or_eq_false_iff.mp hsafe.fault).2
    | removed _ _ _ => exact absurd hsafe.fault nofun
    | @remove item player hlogin hconn hplayer hbuffer =>
        intro other hother
        rw [hlogin] at hother
        obtain rfl := List.mem_singleton.mp hother
        exact Bool.eq_false_iff.mpr fun hremoved ↦ hbuffer ((removed_of_some hplayer).mp hremoved)

/-- The scene of a machine is sound. -/
def Machine.Sound (s : Machine π) : Prop :=
  ∃ v, s.Shows v ∧ v.Sound

theorem Machine.Sound.step {s s' : Machine π} (h : s.Sound) (hcareful : s.Careful event)
    (hstep : s.step event = some s') : s'.Sound := by
  obtain ⟨v, hshows, hsound⟩ := h
  obtain ⟨v', hshows', hmoves⟩ := hshows.step hstep
  exact ⟨v', hshows', hsound.moves (hcareful v hshows) hmoves⟩

theorem Machine.Sound.spoils {s s' : Machine π} (h : s.Sound) (hcareless : ¬ s.Careful event)
    (hstep : s.step event = some s') : ¬ s'.Safe := by
  obtain ⟨v, hshows, hsound⟩ := h
  obtain ⟨v', hshows', hmoves⟩ := hshows.step hstep
  intro hsafe
  refine hsound.spoils (fun hcareful ↦ hcareless fun v₁ hshows₁ ↦ ?_) hmoves (hsafe v' hshows')
  obtain rfl := hshows.unique hshows₁
  exact hcareful

/-- A client who is gone before its session has begun. -/
def goneAtOnce : List (Event ℕ) :=
  [.accept 0, .connSend, .inputTake [] [0], .inputSend, .except 0, .connMark, .connSend,
    .inputTake [] [0], .loginTake, .loginHandle]

theorem runFrom_cons {s s₁ : Machine π} (event : Event π) (events : List (Event π))
    (hstep : s.step event = some s₁) :
    runFrom Machine.step s (event :: events) = runFrom Machine.step s₁ events := by
  unfold runFrom
  rw [List.foldlM_cons, hstep]
  rfl

/-- `LoginThread` finishes an item and uses its player, if it has one in hand. -/
theorem handle_steps (s : Machine π) (hlogin : s.login = .waits ∨ ∃ item, s.login = .handles item) :
    ∃ events s', (∀ event ∈ events, event = .loginTake ∨ event = .loginHandle) ∧
      runFrom Machine.step s events = some s' ∧ s'.login = .waits ∧ s'.players = s.players ∧
      s'.inputLoginQ = s.inputLoginQ ∧
      ∀ item ∈ s.login.items, s.freed item.player = true → s'.fault = true := by
  rcases hlogin with hwaits | ⟨item, hhandles⟩
  · refine ⟨[], s, nofun, rfl, hwaits, rfl, rfl, fun item hitem ↦ ?_⟩
    rw [hwaits] at hitem
    cases hitem
  · have hstep : s.step .loginHandle = some { s with
        login := .waits
        done := s.done ++ [item]
        fault := s.fault || s.freed item.player } := by
      unfold Machine.step
      dsimp only
      rw [hhandles]
    refine ⟨[.loginHandle], _, by simp, runFrom_cons .loginHandle [] hstep, rfl, rfl, rfl, ?_⟩
    intro other hother hfreed
    rw [hhandles] at hother
    obtain rfl := List.mem_singleton.mp hother
    exact Bool.or_eq_true_iff.mpr (.inr hfreed)

/-- A player who was freed while something was left is used by `LoginThread`, if only its handlers
return. -/
theorem freed_is_used {s : Machine π} {waiting : List (InputStateItem π)}
    (hwaiting : Represents s.inputLoginQ waiting)
    (hlogin : s.login = .waits ∨ ∃ item, s.login = .handles item) {item : InputStateItem π}
    (hitem : item ∈ s.login.items ++ waiting) (hfreed : s.freed item.player = true) :
    ∃ events s', (∀ event ∈ events, event = .loginTake ∨ event = .loginHandle) ∧
      runFrom Machine.step s events = some s' ∧ s'.fault = true := by
  induction waiting generalizing s with
  | nil =>
      obtain ⟨events, s', hevents, hrun, -, -, -, hfault⟩ := handle_steps s hlogin
      rw [List.append_nil] at hitem
      exact ⟨events, s', hevents, hrun, hfault item hitem hfreed⟩
  | cons next rest ih =>
      obtain ⟨events, s₁, hevents, hrun, hwaits, hplayers, hqueue, hfault⟩ := handle_steps s hlogin
      rcases List.mem_append.mp hitem with hmine | hrest
      · exact ⟨events, s₁, hevents, hrun, hfault item hmine hfreed⟩
      · -- the next item is taken, and it is the one or comes before it
        obtain ⟨htail, hnext⟩ := hwaiting.takeItem
        have hempty : s.inputLoginQ.empty ≠ true := fun hempty ↦
          List.cons_ne_nil _ _ (hwaiting.empty_iff.mp hempty)
        have htake : s₁.step .loginTake = some { s₁ with
            inputLoginQ := (takeItem s.inputLoginQ).1.1
            login := .handles next } := by
          unfold Machine.step dequeue
          dsimp only
          rw [hwaits, hqueue, if_neg hempty, hnext]
          rfl
        have hfreed' : Threads.freed { s₁ with
            inputLoginQ := (takeItem s.inputLoginQ).1.1
            login := .handles next } item.player = true := by
          unfold Threads.freed
          dsimp only
          rw [hplayers]
          exact hfreed
        obtain ⟨events', s', hevents', hrun', hfault'⟩ :=
          ih (s := { s₁ with
            inputLoginQ := (takeItem s.inputLoginQ).1.1
            login := .handles next }) htail (.inr ⟨next, rfl⟩) hrest hfreed'
        refine ⟨events ++ .loginTake :: events', s', ?_, ?_, hfault'⟩
        · intro event hevent
          rcases List.mem_append.mp hevent with hevent | hevent
          · exact hevents event hevent
          · rcases List.mem_cons.mp hevent with rfl | hevent
            · exact .inl rfl
            · exact hevents' event hevent
        · unfold runFrom at hrun ⊢
          rw [List.foldlM_append, hrun]
          exact (runFrom_cons .loginTake events' htake).trans hrun'

/-- What is left when that client is gone. -/
theorem freed_is_used_goneAtOnce : ∃ (connectInputQ : QueueObject (ConnInputItem ℕ))
    (inputLoginQ : QueueObject (InputStateItem ℕ)) (s : Machine ℕ),
    queueCreate 256 = some connectInputQ ∧ queueCreate 256 = some inputLoginQ ∧
    runFrom Machine.step (.start connectInputQ inputLoginQ) (goneAtOnce.take 8) = some s ∧
    s.fault = false ∧ ∃ events s',
      (∀ event ∈ events, event = .loginTake ∨ event = .loginHandle) ∧
        runFrom Machine.step s events = some s' ∧ s'.fault = true := by
  have hstart := exists_start (a := true) 256 (fun start : Machine ℕ ↦
    (runFrom Machine.step start (goneAtOnce.take 8)).bind fun s ↦
      (dequeue s.inputLoginQ).map fun taken ↦
        decide (taken.2 = ⟨.initial, 0, none⟩ ∧ s.login = .waits ∧ s.freed 0 = true ∧
          s.fault = false)) (by decide +kernel)
  obtain ⟨connectInputQ, inputLoginQ, hconnectInputQ, hinputLoginQ, hrun⟩ := hstart
  obtain ⟨s, hs, hmap⟩ := Option.bind_eq_some_iff.mp hrun
  obtain ⟨⟨queue, item⟩, hdequeue, hdecide⟩ := Option.map_eq_some_iff.mp hmap
  obtain ⟨rfl, hlogin, hfreed, hfault⟩ := of_decide_eq_true hdecide
  obtain ⟨v, ⟨connectItems, waiting, -, hwaiting, -⟩, -⟩ :=
    (shows_start (lists_queueCreate (by decide) hconnectInputQ)
      (lists_queueCreate (by decide) hinputLoginQ)).run (P := fun _ ↦ True) (Q := fun _ ↦ True)
      (fun _ _ _ _ _ _ ↦ trivial) trivial (fun _ _ ↦ trivial) hs
  obtain ⟨rest, rfl, -⟩ := hwaiting.dequeue hdequeue
  exact ⟨connectInputQ, inputLoginQ, s, hconnectInputQ, hinputLoginQ, hs, hfault,
    freed_is_used hwaiting.1 (.inl hlogin) (List.mem_append_right _ List.mem_cons_self) hfreed⟩

end Lives

/-! ## Who waits for whom

`InputThread` waits while `InputLoginQ` is full, whoever tells it something waits while
`ConnectInputQ` is full and keeps the lock of `ConnectionList`, and `LoginThread` waits for that
lock to close a connection.  The threads come to a stop with work left exactly in this circle.
What a handler waits for besides, room for output or an answer of the database, is not looked at. -/

section Waits

variable {π : Type} [DecidableEq π]

/-- What the threads do without anything from outside. -/
def Event.Internal : Event π → Prop
  | .accept _ | .readable _ _ | .except _ => False
  | _ => True

/-- Each thread waits for a queue or for the lock. -/
def Machine.Stuck (s : Machine π) : Prop :=
  ∀ event : Event π, event.Internal → s.step event = none

/-- Both queues are full, `InputThread` has still lines to enqueue, and `LoginThread` is closing a
connection: it waits for the lock of the list, which `ConnectionThread` keeps until it has enqueued
its item, or it has the lock itself and has to enqueue an item. -/
structure Machine.CircularWait (s : Machine π) : Prop where
  connectInputQ : s.connectInputQ.full = true
  inputLoginQ : s.inputLoginQ.full = true
  sending : s.sending ≠ []
  login : (∃ item announced, s.login = .closes item ∧ s.conn = .sends announced) ∨
    ∃ item, s.login = .sends item

/-! ## Queues -/

section Queues

variable {α : Type} {queue : QueueObject α} {items : List α}

end Queues

/-! ## Steps that are not waited for -/

variable {s : Machine π} {v : Scene π}

omit [DecidableEq π] in
/-- Who waits in a circle keeps `ConnectionThread` from its sockets. -/
theorem Machine.CircularWait.locks (hwait : s.CircularWait) :
    s.conn ≠ .selects ∨ s.login.locks = true := by
  rcases hwait.login with ⟨_, _, -, hsends⟩ | ⟨item, hsends⟩
  · exact .inl (hsends ▸ nofun)
  · exact .inr (hsends ▸ rfl)

end Waits

end HavokMud.Pipeline
