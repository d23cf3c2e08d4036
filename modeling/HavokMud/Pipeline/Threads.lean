import HavokMud.Buffer.Sockets
import HavokMud.Input.Arrivals
import HavokMud.Queue.Flush

/-!
# From the sockets to the login dialog

`ConnectionThread` reads from the sockets and tells `InputThread` through `ConnectInputQ`, which
makes lines of the bytes and puts them into `InputLoginQ`, and `LoginThread` handles them.  While a
line is handled, `LoginThread` may close the connection of its player.  The lock of `ConnectionList`
is held from the removal of a connection, or the reading of data, until `InputThread` was told.

Players are never mistaken for others: the memory of a player who was freed is not handed out again.
-/

namespace HavokMud.Pipeline

open Buffer Queue Input Interaction

/-- `ConnInputType_t`. -/
inductive ConnInputType
  | newConnect | inputAvail | flushInput | deleteConnect
deriving DecidableEq

/-- `ConnInputItem_t`. -/
structure ConnInputItem (π : Type) where
  type : ConnInputType
  player : π
deriving DecidableEq

/-- `PlayerStruct_t` with its connection.  The buffer of the link is there until `connRemove`. -/
structure PlayerStruct where
  link : Link
  inRemain : Option (List UInt8)
  /-- `handlingQ` is `InputLoginQ`, and no longer NULL. -/
  handled : Bool
  freed : Bool

/-- The player of a connection that was just accepted. -/
def PlayerStruct.create : PlayerStruct :=
  ⟨.create, none, false, false⟩

/-- `connRemove`, up to `BufferDestroy`. -/
def PlayerStruct.destroy (player : PlayerStruct) : PlayerStruct :=
  { player with link := { player.link with buffer := none } }

/-- `connRemove` ignores any remaining input. -/
def PlayerStruct.mark (player : PlayerStruct) : PlayerStruct :=
  { player with link := { player.link with flush := true } }

/-- `CONN_INPUT_AVAIL`, with the lines.  A buffer that was destroyed is looked into all the same. -/
def PlayerStruct.inputAvail (before after : List UInt8) (player : PlayerStruct) :
    PlayerStruct × List (List UInt8) :=
  match player.link.buffer with
  | none =>
      ({ player with
        link := player.link.input
        inRemain := if player.link.flush then none else player.inRemain }, [])
  | some buffer =>
      let result := Input.inputAvail before after ⟨player.link.flush, buffer, player.inRemain⟩
      ({ player with
        link := player.link.input
        inRemain := result.1.inRemain }, result.2)

/-- Where `ConnectionThread` is.  It has accepted a connection, or removes one, or is about to
enqueue an item. -/
inductive ConnStage (π : Type)
  | selects
  | accepted (player : π)
  | removes (player : π)
  | sends (item : ConnInputItem π)
deriving DecidableEq

/-- `ConnectionThread` has the lock of `ConnectionList`. -/
def ConnStage.locks {π : Type} : ConnStage π → Bool
  | removes _ | sends _ => true
  | _ => false

/-- Where `LoginThread` is with an item.  It has called `connClose` and waits for the lock, or it
has the lock and removes the connection, or is about to enqueue `CONN_DELETE_CONNECT`. -/
inductive LoginStage (π : Type)
  | waits
  | handles (item : InputStateItem π)
  | closes (item : InputStateItem π)
  | removes (item : InputStateItem π)
  | sends (item : InputStateItem π)
deriving DecidableEq

/-- `LoginThread` has the lock of `ConnectionList`. -/
def LoginStage.locks {π : Type} : LoginStage π → Bool
  | removes _ | sends _ => true
  | _ => false

/-- The threads between two steps.  `C` and `L` are the types of the two queues. -/
structure Threads (π C L : Type) where
  connectInputQ : C
  inputLoginQ : L
  players : π → Option PlayerStruct
  conn : ConnStage π
  /-- What `InputThread` has still to enqueue of its present item. -/
  sending : List (InputStateItem π)
  login : LoginStage π
  /-- What `LoginThread` has handled so far. -/
  done : List (InputStateItem π)
  /-- Memory was used after it was freed. -/
  fault : Bool

/-- The threads with the queues of the program. -/
abbrev Machine (π : Type) :=
  Threads π (QueueObject (ConnInputItem π)) (QueueObject (InputStateItem π))

/-- The next thing that happens.  `except` is an exception on the socket, or output for a player who
has disconnected.  `InputThread` assembles the bytes in memory that has others around it. -/
inductive Event (π : Type)
  | accept (player : π)
  | readable (player : π) (result : ReadResult)
  | except (player : π)
  | connMark
  | connSend
  | inputTake (before after : List UInt8)
  | inputSend
  | loginTake
  | loginHandle
  | loginClose
  | loginRemove
  | loginMark
  | loginSend

section Steps

variable {π C L : Type} [DecidableEq π]

/-- The player is another one from now on. -/
def Threads.set (s : Threads π C L) (p : π) (player : PlayerStruct) : Threads π C L :=
  { s with players := Function.update s.players p (some player) }

/-- `QueueEnqueueItem`, which waits as long as the queue is full. -/
def enqueue {α : Type} (queue : QueueObject α) (item : α) : Option (QueueObject α) :=
  if queue.full then none else some (insertItem queue item).1

/-- `QueueDequeueItem` without a timeout, which waits as long as the queue is empty. -/
def dequeue {α : Type} (queue : QueueObject α) : Option (QueueObject α × α) :=
  if queue.empty then none
  else (takeItem queue).2.map fun item ↦ ((takeItem queue).1.1, item)

/-- `FlushQueue` of the handling queue, which may be NULL. -/
def flushHandling (queue : QueueObject (InputStateItem π)) (p : π) (player : PlayerStruct) :
    Option (QueueObject (InputStateItem π)) :=
  if player.handled then deleteConnect (queue.size + 1) queue p else some queue

/-- What `ConnectionThread` does when it has read from a socket. -/
def afterRead (p : π) (buffer : BufferObject) (result : ReadResult) : ConnStage π :=
  if bufferAvailWrite buffer = 0 then .selects
  else
    match result with
    | .eof => .removes p
    | _ => .sends ⟨.inputAvail, p⟩

/-- The item that `ConnectionThread` is about to enqueue. -/
def ConnStage.outgoing : ConnStage π → Option (ConnInputItem π)
  | accepted p => some ⟨.newConnect, p⟩
  | sends item => some item
  | _ => none

/-- `InputThread` has taken an item for a player. -/
def Machine.input (s : Machine π) (before after : List UInt8) (p : π) (player : PlayerStruct) :
    ConnInputType → Option (Machine π)
  | .newConnect =>
      some { s.set p { player with handled := true } with sending := [⟨.initial, p, none⟩] }
  | .inputAvail =>
      let result := player.inputAvail before after
      some { s.set p result.1 with
        sending := result.2.map fun line ↦ ⟨.avail, p, some line⟩
        fault := s.fault || result.1.link.fault }
  | .flushInput =>
      (flushHandling s.inputLoginQ p player).map fun queue ↦
        { s.set p { player with link := { player.link with flush := false } } with
          inputLoginQ := queue }
  | .deleteConnect =>
      (flushHandling s.inputLoginQ p player).map fun queue ↦
        { s.set p { player with freed := true } with inputLoginQ := queue }

/-- The connection of the player was removed, and `ConnectionItem_t` is no longer there. -/
def Threads.removed (s : Threads π C L) (p : π) : Bool :=
  ((s.players p).bind fun player ↦ player.link.buffer).isNone

/-- The player was freed. -/
def Threads.freed (s : Threads π C L) (p : π) : Bool :=
  (s.players p).any PlayerStruct.freed

def Machine.step (s : Machine π) : Event π → Option (Machine π)
  | .accept p =>
      match s.conn, s.players p with
      | .selects, none =>
          -- `LinkedListAdd` waits for the lock
          if s.login.locks then none
          else some { s.set p .create with conn := .accepted p }
      | _, _ => none
  | .readable p result =>
      match s.conn, s.players p with
      | .selects, some player =>
          if s.login.locks then none
          else player.link.buffer.bind fun buffer ↦
            (player.link.readable buffer result).map fun link ↦
              { s.set p { player with link := link } with conn := afterRead p buffer result }
      | _, _ => none
  | .except p =>
      match s.conn, s.players p with
      | .selects, some player =>
          if s.login.locks ∨ player.link.buffer = none then none
          else some { s.set p player.destroy with conn := .removes p }
      | _, _ => none
  | .connMark =>
      match s.conn with
      | .removes p => (s.players p).map fun player ↦
          { s.set p player.mark with conn := .sends ⟨.deleteConnect, p⟩ }
      | _ => none
  | .connSend => s.conn.outgoing.bind fun item ↦
      (enqueue s.connectInputQ item).map fun queue ↦
        { s with
          connectInputQ := queue
          conn := .selects }
  | .inputTake before after =>
      match s.sending with
      | _ :: _ => none
      | [] => (dequeue s.connectInputQ).bind fun taken ↦
          match s.players taken.2.player with
          | none => none
          | some player =>
              if player.freed then some { s with
                connectInputQ := taken.1
                fault := true }
              else Machine.input { s with connectInputQ := taken.1 } before after taken.2.player
                player taken.2.type
  | .inputSend =>
      match s.sending with
      | [] => none
      | item :: rest => (enqueue s.inputLoginQ item).map fun queue ↦
          { s with
            inputLoginQ := queue
            sending := rest }
  | .loginTake =>
      match s.login with
      | .waits => (dequeue s.inputLoginQ).map fun taken ↦
          { s with
            inputLoginQ := taken.1
            login := .handles taken.2 }
      | _ => none
  | .loginHandle =>
      match s.login with
      | .handles item => some { s with
          login := .waits
          done := s.done ++ [item]
          fault := s.fault || s.freed item.player }
      | _ => none
  | .loginClose =>
      match s.login with
      | .handles item => some { s with
          login := .closes item
          fault := s.fault || s.removed item.player }
      | _ => none
  | .loginRemove =>
      match s.login, s.conn.locks with
      | .closes item, false =>
          if s.removed item.player then some { s with
            login := .handles item
            fault := true }
          else (s.players item.player).map fun player ↦
            { s.set item.player player.destroy with login := .removes item }
      | _, _ => none
  | .loginMark =>
      match s.login with
      | .removes item => (s.players item.player).map fun player ↦
          { s.set item.player player.mark with login := .sends item }
      | _ => none
  | .loginSend =>
      match s.login with
      | .sends item =>
          (enqueue s.connectInputQ ⟨.deleteConnect, item.player⟩).map fun queue ↦
            { s with
              connectInputQ := queue
              login := .handles item }
      | _ => none

/-- The threads when nobody has connected. -/
def Machine.start (connectInputQ : QueueObject (ConnInputItem π))
    (inputLoginQ : QueueObject (InputStateItem π)) : Machine π :=
  ⟨connectInputQ, inputLoginQ, fun _ ↦ none, .selects, [], .waits, [], false⟩

end Steps

/-! ## What the threads can do

Both queues are lists to which the threads append and from whose front they take, and flushing a
player takes nothing out of them.  Whatever the machine does is one of the moves below, and the
properties of runs are derived from these. -/

/-- The threads with lists for the queues. -/
abbrev Scene (π : Type) :=
  Threads π (List (ConnInputItem π)) (List (InputStateItem π))

section Scenes

variable {π : Type} [DecidableEq π]

/-- `ConnectionThread` does something. -/
inductive Scene.ConnMoves (v : Scene π) : Event π → Scene π → Prop
  | accept {p : π} (hconn : v.conn = .selects) (hlogin : v.login.locks = false)
      (hnew : v.players p = none) :
      ConnMoves v (.accept p) { v.set p .create with conn := .accepted p }
  | readable {p : π} {player : PlayerStruct} {buffer : BufferObject} {result : ReadResult}
      {link : Link} (hconn : v.conn = .selects) (hlogin : v.login.locks = false)
      (hplayer : v.players p = some player) (hbuffer : player.link.buffer = some buffer)
      (hread : player.link.readable buffer result = some link) :
      ConnMoves v (.readable p result)
        { v.set p { player with link := link } with conn := afterRead p buffer result }
  | except {p : π} {player : PlayerStruct} (hconn : v.conn = .selects)
      (hlogin : v.login.locks = false) (hplayer : v.players p = some player)
      (hbuffer : player.link.buffer ≠ none) :
      ConnMoves v (.except p) { v.set p player.destroy with conn := .removes p }
  | mark {p : π} {player : PlayerStruct} (hconn : v.conn = .removes p)
      (hplayer : v.players p = some player) :
      ConnMoves v .connMark { v.set p player.mark with conn := .sends ⟨.deleteConnect, p⟩ }
  | send {item : ConnInputItem π} (hconn : v.conn.outgoing = some item) :
      ConnMoves v .connSend
        { v with
          connectInputQ := v.connectInputQ ++ [item]
          conn := .selects }

/-- `InputThread` does something.  It takes an item and does what the item asks for. -/
inductive Scene.InputMoves (v : Scene π) : Event π → Scene π → Prop
  | freed {before after : List UInt8} {item : ConnInputItem π} {rest : List (ConnInputItem π)}
      {player : PlayerStruct} (hsending : v.sending = []) (hqueue : v.connectInputQ = item :: rest)
      (hplayer : v.players item.player = some player) (hfreed : player.freed = true) :
      InputMoves v (.inputTake before after)
        { v with
          connectInputQ := rest
          fault := true }
  | newConnect {before after : List UInt8} {p : π} {rest : List (ConnInputItem π)}
      {player : PlayerStruct} (hsending : v.sending = [])
      (hqueue : v.connectInputQ = ⟨.newConnect, p⟩ :: rest) (hplayer : v.players p = some player)
      (hfreed : player.freed = false) :
      InputMoves v (.inputTake before after)
        { v.set p { player with handled := true } with
          connectInputQ := rest
          sending := [⟨.initial, p, none⟩] }
  | inputAvail {before after : List UInt8} {p : π} {rest : List (ConnInputItem π)}
      {player : PlayerStruct} (hsending : v.sending = [])
      (hqueue : v.connectInputQ = ⟨.inputAvail, p⟩ :: rest) (hplayer : v.players p = some player)
      (hfreed : player.freed = false) :
      InputMoves v (.inputTake before after)
        { v.set p (player.inputAvail before after).1 with
          connectInputQ := rest
          sending := (player.inputAvail before after).2.map fun line ↦ ⟨.avail, p, some line⟩
          fault := v.fault || (player.inputAvail before after).1.link.fault }
  | flushInput {before after : List UInt8} {p : π} {rest : List (ConnInputItem π)}
      {player : PlayerStruct} (hsending : v.sending = [])
      (hqueue : v.connectInputQ = ⟨.flushInput, p⟩ :: rest) (hplayer : v.players p = some player)
      (hfreed : player.freed = false) :
      InputMoves v (.inputTake before after)
        { v.set p { player with link := { player.link with flush := false } } with
          connectInputQ := rest }
  | deleteConnect {before after : List UInt8} {p : π} {rest : List (ConnInputItem π)}
      {player : PlayerStruct} (hsending : v.sending = [])
      (hqueue : v.connectInputQ = ⟨.deleteConnect, p⟩ :: rest)
      (hplayer : v.players p = some player) (hfreed : player.freed = false) :
      InputMoves v (.inputTake before after)
        { v.set p { player with freed := true } with connectInputQ := rest }
  | send {item : InputStateItem π} {rest : List (InputStateItem π)}
      (hsending : v.sending = item :: rest) :
      InputMoves v .inputSend
        { v with
          inputLoginQ := v.inputLoginQ ++ [item]
          sending := rest }

/-- `LoginThread` does something. -/
inductive Scene.LoginMoves (v : Scene π) : Event π → Scene π → Prop
  | take {item : InputStateItem π} {rest : List (InputStateItem π)} (hlogin : v.login = .waits)
      (hqueue : v.inputLoginQ = item :: rest) :
      LoginMoves v .loginTake
        { v with
          inputLoginQ := rest
          login := .handles item }
  | handle {item : InputStateItem π} (hlogin : v.login = .handles item) :
      LoginMoves v .loginHandle
        { v with
          login := .waits
          done := v.done ++ [item]
          fault := v.fault || v.freed item.player }
  | close {item : InputStateItem π} (hlogin : v.login = .handles item) :
      LoginMoves v .loginClose
        { v with
          login := .closes item
          fault := v.fault || v.removed item.player }
  | removed {item : InputStateItem π} (hlogin : v.login = .closes item)
      (hconn : v.conn.locks = false) (hremoved : v.removed item.player = true) :
      LoginMoves v .loginRemove
        { v with
          login := .handles item
          fault := true }
  | remove {item : InputStateItem π} {player : PlayerStruct} (hlogin : v.login = .closes item)
      (hconn : v.conn.locks = false) (hplayer : v.players item.player = some player)
      (hbuffer : player.link.buffer ≠ none) :
      LoginMoves v .loginRemove
        { v.set item.player player.destroy with login := .removes item }
  | mark {item : InputStateItem π} {player : PlayerStruct} (hlogin : v.login = .removes item)
      (hplayer : v.players item.player = some player) :
      LoginMoves v .loginMark { v.set item.player player.mark with login := .sends item }
  | send {item : InputStateItem π} (hlogin : v.login = .sends item) :
      LoginMoves v .loginSend
        { v with
          connectInputQ := v.connectInputQ ++ [⟨.deleteConnect, item.player⟩]
          login := .handles item }

/-- One of the threads does something. -/
def Scene.Moves (v : Scene π) (event : Event π) (v' : Scene π) : Prop :=
  v.ConnMoves event v' ∨ v.InputMoves event v' ∨ v.LoginMoves event v'

/-- The scene when nobody has connected. -/
def Scene.start : Scene π :=
  ⟨[], [], fun _ ↦ none, .selects, [], .waits, [], false⟩

end Scenes

/-! ### Queues are lists -/

section Queues

variable {α : Type} {queue queue' : QueueObject α} {items : List α}

/-- A queue is this list, and its free slots are NULL. -/
def Lists (queue : QueueObject α) (items : List α) : Prop :=
  Represents queue items ∧ queue.Clean

theorem lists_queueCreate {numElements : UInt32} (hge : 2 ≤ numElements.toNat)
    (hcreate : queueCreate numElements = some queue) : Lists queue [] := by
  obtain ⟨queue₀, hcreate₀, hrepresents, -⟩ := @queueCreate_represents α numElements hge
  obtain rfl := Option.some.inj (hcreate.symm.trans hcreate₀)
  exact ⟨hrepresents, clean_queueCreate hcreate⟩

theorem Lists.enqueue (h : Lists queue items) {item : α}
    (henqueue : enqueue queue item = some queue') : Lists queue' (items ++ [item]) := by
  unfold Pipeline.enqueue at henqueue
  split_ifs at henqueue with hfull
  obtain rfl := Option.some.inj henqueue
  exact ⟨h.1.insertItem hfull item, clean_insertItem h.1 h.2 hfull item⟩

theorem Lists.dequeue (h : Lists queue items) {item : α}
    (hdequeue : dequeue queue = some (queue', item)) :
    ∃ rest, items = item :: rest ∧ Lists queue' rest := by
  unfold Pipeline.dequeue at hdequeue
  split_ifs at hdequeue with hempty
  cases items with
  | nil => exact absurd (h.1.empty_iff.mpr rfl) hempty
  | cons first rest =>
      obtain ⟨hrest, hfirst⟩ := h.1.takeItem
      rw [hfirst] at hdequeue
      obtain ⟨rfl, rfl⟩ := Prod.mk.inj (Option.some.inj hdequeue)
      exact ⟨rest, rfl, hrest, clean_takeItem h.1 h.2⟩

end Queues

section Steps

variable {π : Type} [DecidableEq π]

/-- Flushing a player leaves the queue as it is. -/
theorem Lists.flushHandling {queue : QueueObject (InputStateItem π)}
    {items : List (InputStateItem π)} (h : Lists queue items) (p : π) (player : PlayerStruct) :
    flushHandling queue p player = some queue := by
  unfold Pipeline.flushHandling
  split_ifs
  · unfold deleteConnect
    rw [(flushQueue_cases h.1 h.2 p _).2 (Nat.lt_succ_self _)]
    rfl
  · rfl

/-- The machine with lists in the place of its queues. -/
def Machine.scene (s : Machine π) (connectItems : List (ConnInputItem π))
    (loginItems : List (InputStateItem π)) : Scene π :=
  ⟨connectItems, loginItems, s.players, s.conn, s.sending, s.login, s.done, s.fault⟩

/-- A machine whose queues are the lists of a scene, and which is the same otherwise. -/
def Machine.Shows (s : Machine π) (v : Scene π) : Prop :=
  ∃ connectItems loginItems, Lists s.connectInputQ connectItems ∧
    Lists s.inputLoginQ loginItems ∧ v = s.scene connectItems loginItems

omit [DecidableEq π] in
theorem shows_start {connectInputQ : QueueObject (ConnInputItem π)}
    {inputLoginQ : QueueObject (InputStateItem π)} (hconnect : Lists connectInputQ [])
    (hlogin : Lists inputLoginQ []) : (Machine.start connectInputQ inputLoginQ).Shows .start :=
  ⟨[], [], hconnect, hlogin, rfl⟩

omit [DecidableEq π] in
/-- The queues of a machine that was started. -/
theorem exists_start {α : Type} (n : UInt32) (f : Machine π → Option α) {a : α}
    (h : ((queueCreate n).bind fun connectInputQ ↦ (queueCreate n).bind fun inputLoginQ ↦
      f (.start connectInputQ inputLoginQ)) = some a) :
    ∃ (connectInputQ : QueueObject (ConnInputItem π)) (inputLoginQ : QueueObject (InputStateItem π)),
      queueCreate n = some connectInputQ ∧ queueCreate n = some inputLoginQ ∧
        f (.start connectInputQ inputLoginQ) = some a := by
  obtain ⟨connectInputQ, hconnectInputQ, h⟩ := Option.bind_eq_some_iff.mp h
  obtain ⟨inputLoginQ, hinputLoginQ, h⟩ := Option.bind_eq_some_iff.mp h
  exact ⟨connectInputQ, inputLoginQ, hconnectInputQ, hinputLoginQ, h⟩

variable {s s' : Machine π} {v : Scene π}

theorem Machine.Shows.conn_step (h : s.Shows v) {event : Event π}
    (hevent : event matches .accept _ | .readable _ _ | .except _ | .connMark | .connSend)
    (hstep : s.step event = some s') :
    ∃ v', s'.Shows v' ∧ v.ConnMoves event v' := by
  obtain ⟨_, _, hconnect, hlogin, rfl⟩ := h
  cases event with
  | accept p =>
      unfold step at hstep
      dsimp only at hstep
      split at hstep
      · next hconn hnew =>
          split_ifs at hstep with hlocks
          obtain rfl := Option.some.inj hstep
          exact ⟨_, ⟨_, _, hconnect, hlogin, rfl⟩,
            .accept hconn (Bool.eq_false_iff.mpr hlocks) hnew⟩
      · cases hstep
  | readable p result =>
      unfold step at hstep
      dsimp only at hstep
      split at hstep
      · next player hconn hplayer =>
          split_ifs at hstep with hlocks
          obtain ⟨buffer, hbuffer, hmap⟩ := Option.bind_eq_some_iff.mp hstep
          obtain ⟨link, hread, rfl⟩ := Option.map_eq_some_iff.mp hmap
          exact ⟨_, ⟨_, _, hconnect, hlogin, rfl⟩,
            .readable hconn (Bool.eq_false_iff.mpr hlocks) hplayer hbuffer hread⟩
      · cases hstep
  | except p =>
      unfold step at hstep
      dsimp only at hstep
      split at hstep
      · next player hconn hplayer =>
          split_ifs at hstep with hor
          obtain ⟨hlocks, hbuffer⟩ := not_or.mp hor
          obtain rfl := Option.some.inj hstep
          exact ⟨_, ⟨_, _, hconnect, hlogin, rfl⟩,
            .except hconn (Bool.eq_false_iff.mpr hlocks) hplayer hbuffer⟩
      · cases hstep
  | connMark =>
      unfold step at hstep
      dsimp only at hstep
      split at hstep
      · next p hconn =>
          obtain ⟨player, hplayer, rfl⟩ := Option.map_eq_some_iff.mp hstep
          exact ⟨_, ⟨_, _, hconnect, hlogin, rfl⟩, .mark hconn hplayer⟩
      · cases hstep
  | connSend =>
      unfold step at hstep
      dsimp only at hstep
      obtain ⟨item, hconn, hmap⟩ := Option.bind_eq_some_iff.mp hstep
      obtain ⟨queue, hqueue, rfl⟩ := Option.map_eq_some_iff.mp hmap
      exact ⟨_, ⟨_, _, hconnect.enqueue hqueue, hlogin, rfl⟩, .send hconn⟩
  | _ => cases hevent

theorem Machine.Shows.input_step (h : s.Shows v) {event : Event π}
    (hevent : event matches .inputTake _ _ | .inputSend) (hstep : s.step event = some s') :
    ∃ v', s'.Shows v' ∧ v.InputMoves event v' := by
  obtain ⟨_, _, hconnect, hlogin, rfl⟩ := h
  cases event with
  | inputTake before after =>
      unfold step at hstep
      dsimp only at hstep
      split at hstep
      · cases hstep
      next hsending =>
      obtain ⟨⟨queue, ⟨type, p⟩⟩, hqueue, htaken⟩ := Option.bind_eq_some_iff.mp hstep
      obtain ⟨rest, hitems, hrest⟩ := hconnect.dequeue hqueue
      dsimp only at htaken
      split at htaken
      · cases htaken
      next player hplayer =>
      split_ifs at htaken with hfreed
      · obtain rfl := Option.some.inj htaken
        exact ⟨_, ⟨_, _, hrest, hlogin, rfl⟩, .freed hsending hitems hplayer hfreed⟩
      · have hfreed := Bool.eq_false_iff.mpr hfreed
        cases type with
        | newConnect =>
            obtain rfl := Option.some.inj htaken
            exact ⟨_, ⟨_, _, hrest, hlogin, rfl⟩, .newConnect hsending hitems hplayer hfreed⟩
        | inputAvail =>
            obtain rfl := Option.some.inj htaken
            exact ⟨_, ⟨_, _, hrest, hlogin, rfl⟩, .inputAvail hsending hitems hplayer hfreed⟩
        | flushInput =>
            unfold input at htaken
            dsimp only at htaken
            rw [hlogin.flushHandling p player, Option.map_some] at htaken
            obtain rfl := Option.some.inj htaken
            exact ⟨_, ⟨_, _, hrest, hlogin, rfl⟩, .flushInput hsending hitems hplayer hfreed⟩
        | deleteConnect =>
            unfold input at htaken
            dsimp only at htaken
            rw [hlogin.flushHandling p player, Option.map_some] at htaken
            obtain rfl := Option.some.inj htaken
            exact ⟨_, ⟨_, _, hrest, hlogin, rfl⟩, .deleteConnect hsending hitems hplayer hfreed⟩
  | inputSend =>
      unfold step at hstep
      dsimp only at hstep
      split at hstep
      · cases hstep
      next item rest hsending =>
      obtain ⟨queue, hqueue, rfl⟩ := Option.map_eq_some_iff.mp hstep
      exact ⟨_, ⟨_, _, hconnect, hlogin.enqueue hqueue, rfl⟩, .send hsending⟩
  | _ => cases hevent

theorem Machine.Shows.login_step (h : s.Shows v) {event : Event π}
    (hevent : event matches .loginTake | .loginHandle | .loginClose | .loginRemove | .loginMark |
      .loginSend) (hstep : s.step event = some s') :
    ∃ v', s'.Shows v' ∧ v.LoginMoves event v' := by
  obtain ⟨_, _, hconnect, hlogin, rfl⟩ := h
  cases event with
  | loginTake =>
      unfold step at hstep
      dsimp only at hstep
      split at hstep
      · next hwaits =>
          obtain ⟨⟨queue, item⟩, hqueue, rfl⟩ := Option.map_eq_some_iff.mp hstep
          obtain ⟨rest, hitems, hrest⟩ := hlogin.dequeue hqueue
          exact ⟨_, ⟨_, _, hconnect, hrest, rfl⟩, .take hwaits hitems⟩
      · cases hstep
  | loginHandle =>
      unfold step at hstep
      dsimp only at hstep
      split at hstep
      · next item hhandles =>
          obtain rfl := Option.some.inj hstep
          exact ⟨_, ⟨_, _, hconnect, hlogin, rfl⟩, .handle hhandles⟩
      · cases hstep
  | loginClose =>
      unfold step at hstep
      dsimp only at hstep
      split at hstep
      · next item hhandles =>
          obtain rfl := Option.some.inj hstep
          exact ⟨_, ⟨_, _, hconnect, hlogin, rfl⟩, .close hhandles⟩
      · cases hstep
  | loginRemove =>
      unfold step at hstep
      dsimp only at hstep
      split at hstep
      · next item hcloses hlocks =>
          split_ifs at hstep with hremoved
          · obtain rfl := Option.some.inj hstep
            exact ⟨_, ⟨_, _, hconnect, hlogin, rfl⟩, .removed hcloses hlocks hremoved⟩
          · obtain ⟨player, hplayer, rfl⟩ := Option.map_eq_some_iff.mp hstep
            have hbuffer : player.link.buffer ≠ none := by
              intro hnone
              apply hremoved
              unfold Threads.removed
              rw [hplayer, Option.bind_some, hnone]
              rfl
            exact ⟨_, ⟨_, _, hconnect, hlogin, rfl⟩, .remove hcloses hlocks hplayer hbuffer⟩
      · cases hstep
  | loginMark =>
      unfold step at hstep
      dsimp only at hstep
      split at hstep
      · next item hremoves =>
          obtain ⟨player, hplayer, rfl⟩ := Option.map_eq_some_iff.mp hstep
          exact ⟨_, ⟨_, _, hconnect, hlogin, rfl⟩, .mark hremoves hplayer⟩
      · cases hstep
  | loginSend =>
      unfold step at hstep
      dsimp only at hstep
      split at hstep
      · next item hsends =>
          obtain ⟨queue, hqueue, rfl⟩ := Option.map_eq_some_iff.mp hstep
          exact ⟨_, ⟨_, _, hconnect.enqueue hqueue, hlogin, rfl⟩, .send hsends⟩
      · cases hstep
  | _ => cases hevent

/-- Whatever the machine does is a move of its scene. -/
theorem Machine.Shows.step (h : s.Shows v) {event : Event π} (hstep : s.step event = some s') :
    ∃ v', s'.Shows v' ∧ v.Moves event v' := by
  cases event with
  | accept _ | readable _ _ | except _ | connMark | connSend =>
      obtain ⟨v', hshows, hmoves⟩ := h.conn_step rfl hstep
      exact ⟨v', hshows, .inl hmoves⟩
  | inputTake _ _ | inputSend =>
      obtain ⟨v', hshows, hmoves⟩ := h.input_step rfl hstep
      exact ⟨v', hshows, .inr (.inl hmoves)⟩
  | loginTake | loginHandle | loginClose | loginRemove | loginMark | loginSend =>
      obtain ⟨v', hshows, hmoves⟩ := h.login_step rfl hstep
      exact ⟨v', hshows, .inr (.inr hmoves)⟩

/-- What all moves to scenes keep holds of what is shown after a run. -/
theorem Machine.Shows.run {P : Scene π → Prop} {Q : Event π → Prop}
    (hmoves : ∀ v event v', P v → Q event → v.Moves event v' → P v') (h : s.Shows v) (hv : P v)
    {events : List (Event π)} (hevents : ∀ event ∈ events, Q event)
    (hrun : runFrom Machine.step s events = some s') : ∃ v', s'.Shows v' ∧ P v' := by
  induction events using List.reverseRecOn generalizing s' with
  | nil =>
      obtain rfl := Option.some.inj hrun
      exact ⟨v, h, hv⟩
  | append_singleton events event ih =>
      obtain ⟨hevents, hevent⟩ := List.forall_mem_append.mp hevents
      rw [runFrom_concat] at hrun
      obtain ⟨s₁, hfirst, hstep⟩ := Option.bind_eq_some_iff.mp hrun
      obtain ⟨v₁, hshows, hv₁⟩ := ih hevents hfirst
      obtain ⟨v', hshows', hmove⟩ := hshows.step hstep
      exact ⟨v', hshows', hmoves v₁ event v' hv₁ (hevent event (List.mem_singleton_self event))
        hmove⟩

end Steps

end HavokMud.Pipeline
