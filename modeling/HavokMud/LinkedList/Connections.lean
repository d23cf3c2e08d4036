import HavokMud.Interaction.Histories
import HavokMud.LinkedList.Lists

/-!
# The connections

The connection thread adds accepted connections at the tail of `ConnectionList`.  After every
`select` it locks the list and goes through it.  `connRemove` unlinks a connection by hand, frees it
and returns the connection before it.  A new connection is never one that was freed before, so that
a pointer to a freed connection is known as such.
-/

namespace HavokMud.LinkedList

open Interaction

variable {ι : Type} [DecidableEq ι]

/-! ## The links -/

namespace Heap

/-- `item->link.prev->next`, or the head of the list, gets what follows the item. -/
def unlinkBefore (item : ι) (h : Heap ι Unit) : Heap ι Unit :=
  match h.prev item with
  | some prev => { h with next := Function.update h.next prev (h.next item) }
  | none => { h with head := Function.update h.head () (h.next item) }

/-- `item->link.next->prev`, or the tail of the list, gets what precedes the item. -/
def unlinkAfter (item : ι) (h : Heap ι Unit) : Heap ι Unit :=
  match h.next item with
  | some next => { h with prev := Function.update h.prev next (h.prev item) }
  | none => { h with tail := Function.update h.tail () (h.prev item) }

/-- The part of `connRemove` that changes the links. -/
def unlink (item : ι) (h : Heap ι Unit) : Heap ι Unit :=
  unlinkAfter item (unlinkBefore item h)

variable {h : Heap ι Unit} {x : ι}

theorem unlinkBefore_eq (hends : h.prev x = none ↔ h.head () = some x) : h.unlinkBefore x =
    { h with
      next := fun y ↦ if h.prev x = some y then h.next x else h.next y
      head := Function.update h.head () (if h.head () = some x then h.next x else h.head ()) } := by
  unfold unlinkBefore
  cases hprev : h.prev x with
  | none =>
      have hhead := hends.mp hprev
      simp [hhead]
  | some p =>
      have hhead : h.head () ≠ some x := by
        intro hhead
        rw [hends.mpr hhead] at hprev
        cases hprev
      simp only [if_neg hhead, Function.update_eq_self, Option.some.injEq]
      congr 1
      funext y
      simp [Function.update_apply, eq_comm]

theorem unlinkAfter_eq (hends : h.next x = none ↔ h.tail () = some x) : h.unlinkAfter x =
    { h with
      prev := fun y ↦ if h.next x = some y then h.prev x else h.prev y
      tail := Function.update h.tail () (if h.tail () = some x then h.prev x else h.tail ()) } := by
  unfold unlinkAfter
  cases hnext : h.next x with
  | none =>
      have htail := hends.mp hnext
      simp [htail]
  | some n =>
      have htail : h.tail () ≠ some x := by
        intro htail
        rw [hends.mpr htail] at hnext
        cases hnext
      simp only [if_neg htail, Function.update_eq_self, Option.some.injEq]
      congr 1
      funext y
      simp [Function.update_apply, eq_comm]

/-- The links change as in `LinkedListRemove`, which also takes the item off the count. -/
theorem unlink_eq (hself : h.prev x ≠ some x) (hself' : h.next x ≠ some x)
    (hfirst : h.prev x = none ↔ h.head () = some x)
    (hlast : h.next x = none ↔ h.tail () = some x) :
    h.unlink x = { h.remove () x with list := h.list, items := h.items } := by
  have hlast' : (h.unlinkBefore x).next x = none ↔ (h.unlinkBefore x).tail () = some x := by
    simpa only [unlinkBefore_eq hfirst, if_neg hself] using hlast
  unfold unlink
  rw [unlinkAfter_eq hlast', remove_eq h () x hself hself']
  simp only [unlinkBefore_eq hfirst, if_neg hself]

end Heap

/-! ## The connection thread -/

/-- What the loop finds out about the connection that it is at. -/
structure Ready where
  except : Bool
  read : Bool
  write : Bool
  /-- `BufferAvailWrite` finds space in the buffer. -/
  space : Bool
  /-- `read` returns zero. -/
  eof : Bool
  /-- There is an item in the output queue of the player. -/
  output : Bool
deriving DecidableEq

/-- `ConnectionList`, and the loop over it. -/
structure ConnState (ι : Type) where
  heap : Heap ι Unit
  /-- The connections that `connRemove` has freed. -/
  freed : List ι
  /-- The player of the connection is in `STATE_DISCONNECT`. -/
  disconnected : ι → Bool
  /-- `item` and `fdCount`, while the loop has the list locked. -/
  loop : Option (Option ι × ℤ)
  /-- A connection was read or removed after it was freed. -/
  fault : Bool

/-- A connection is accepted, `select` returns, the loop looks at one connection, it ends, or the
login thread closes the connection of a player, who is in `STATE_DISCONNECT` then. -/
inductive ConnEvent (ι : Type)
  | accept (i : ι)
  | select (fdCount : ℤ)
  | turn (ready : Ready)
  | leave
  | close (i : ι)

/-- The loop removes the connection that it is at. -/
def Ready.removes (ready : Ready) : Bool :=
  ready.except || ready.read && ready.space && ready.eof

/-- A connection is removed. -/
def ConnEvent.removes : ConnEvent ι → Bool
  | .turn ready => ready.removes
  | .close _ => true
  | .accept _ | .select _ | .leave => false

namespace ConnState

/-- After `LinkedListCreate`. -/
def create : ConnState ι :=
  { heap :=
      { prev := fun _ ↦ none
        next := fun _ ↦ none
        list := fun _ ↦ none
        head := fun _ ↦ none
        tail := fun _ ↦ none
        items := fun _ ↦ 0
        locked := fun _ ↦ false }
    freed := []
    disconnected := fun _ ↦ false
    loop := none
    fault := false }

/-- `connRemove` with the connection that it returns. -/
def connRemove (item : ι) (s : ConnState ι) : ConnState ι × Option ι :=
  if item ∈ s.freed then
    ({ s with fault := true }, none)
  else
    let heap := s.heap.unlink item
    ({ s with heap := heap, freed := item :: s.freed }, heap.prev item)

/-- `connClose` by a thread that has the list locked. -/
def connClose (item : ι) (s : ConnState ι) : ConnState ι :=
  (s.connRemove item).1

/-- `connKickOutput` for a connection that has no output under way. -/
def connKickOutput (item : ι) (output : Bool) (s : ConnState ι) : ConnState ι :=
  if output then s else if s.disconnected item then s.connClose item else s

/-- The loop goes on behind an item, or from the head of the list if the item is NULL. -/
def advance (item : Option ι) (fdCount : ℤ) (s : ConnState ι) : ConnState ι :=
  match item with
  | none => { s with loop := some (s.heap.head (), fdCount) }
  | some item =>
      if item ∈ s.freed then { s with fault := true }
      else { s with loop := some (s.heap.next item, fdCount) }

/-- The loop body. -/
def turn (item : ι) (fdCount : ℤ) (ready : Ready) (s : ConnState ι) : ConnState ι :=
  if item ∈ s.freed then
    { s with fault := true }
  else if ready.except then
    let fdCount := if ready.read then fdCount - 1 else fdCount
    let fdCount := if ready.write then fdCount - 1 else fdCount
    let (s, item) := s.connRemove item
    s.advance item (fdCount - 1)
  else if ready.read && !ready.space then
    s.advance (some item) fdCount
  else if ready.read && ready.eof then
    let fdCount := if ready.write then fdCount - 1 else fdCount
    let (s, item) := s.connRemove item
    s.advance item (fdCount - 1)
  else if ready.write then
    (s.connKickOutput item ready.output).advance (some item) (fdCount - 1)
  else
    s.advance (some item) fdCount

/-- `enter_state_disconnect`, and the state that the player is in then. -/
def closed (i : ι) (s : ConnState ι) : ConnState ι :=
  let s := s.connClose i
  { s with disconnected := Function.update s.disconnected i true }

/-- There are no steps after a fault. -/
def step (s : ConnState ι) (event : ConnEvent ι) : Option (ConnState ι) :=
  if s.fault then none
  else match event with
  | .accept i =>
      if s.loop.isNone && (s.heap.list i).isNone then
        some { s with heap := s.heap.add () i .atTail }
      else none
  | .select fdCount =>
      if s.loop.isNone && fdCount != 0 then
        some { s with loop := some (s.heap.head (), fdCount) }
      else none
  | .turn ready =>
      match s.loop with
      | some (some item, fdCount) => if fdCount ≠ 0 then some (s.turn item fdCount ready) else none
      | _ => none
  | .leave =>
      match s.loop with
      | some (item, fdCount) =>
          if item.isNone || fdCount == 0 then some { s with loop := none } else none
      | none => none
  | .close i =>
      if s.loop.isNone && (s.heap.list i).isSome then some (s.closed i) else none

variable {s s' : ConnState ι} {i : ι}

/-- A turn removes the connection, or it may kick the output. -/
theorem turn_cases (hfreed : i ∉ s.freed) (fdCount : ℤ) (ready : Ready) :
    (ready.removes = true ∧
      ∃ left, s.turn i fdCount ready = (s.connRemove i).1.advance (s.connRemove i).2 left) ∨
    (ready.removes = false ∧
      ∃ left, s.turn i fdCount ready = s.advance (some i) left ∨
        s.turn i fdCount ready = (s.connKickOutput i ready.output).advance (some i) left) := by
  unfold turn Ready.removes
  rw [if_neg hfreed]
  by_cases hexcept : ready.except = true
  · exact .inl ⟨by rw [hexcept, Bool.true_or], _, if_pos hexcept⟩
  rw [if_neg hexcept, Bool.eq_false_iff.mpr hexcept, Bool.false_or]
  by_cases hread : ready.read = true
  · rw [hread, Bool.true_and, Bool.true_and, Bool.true_and]
    by_cases hspace : ready.space = true
    · rw [hspace, Bool.true_and, Bool.not_true, if_neg Bool.false_ne_true]
      by_cases hend : ready.eof = true
      · exact .inl ⟨hend, _, if_pos hend⟩
      · refine .inr ⟨Bool.eq_false_iff.mpr hend, ?_⟩
        rw [if_neg hend]
        split_ifs
        · exact ⟨_, .inr rfl⟩
        · exact ⟨_, .inl rfl⟩
    · rw [Bool.eq_false_iff.mpr hspace, Bool.false_and, Bool.not_false, if_pos rfl]
      exact .inr ⟨rfl, _, .inl rfl⟩
  · rw [Bool.eq_false_iff.mpr hread, Bool.false_and, Bool.false_and, Bool.false_and,
      if_neg Bool.false_ne_true, if_neg Bool.false_ne_true]
    refine .inr ⟨rfl, ?_⟩
    split_ifs
    · exact ⟨_, .inr rfl⟩
    · exact ⟨_, .inl rfl⟩

/-! ## What the list is -/

/-- The list invariant of `ConnectionList`. -/
structure IsList (h : Heap ι Unit) (conns : List ι) : Prop where
  forward : Linked h.next (h.head ()) conns
  backward : Linked h.prev (h.tail ()) conns.reverse
  nodup : conns.Nodup
  list : ∀ i ∈ conns, h.list i = some ()
  items : h.items () = conns.length

/-- The list is well formed, and no freed connection was used. -/
def Sound (s : ConnState ι) : Prop :=
  (∃ conns, IsList s.heap conns) ∧ s.fault = false

/-- The list as it would be if `connRemove` cleared the list of the connection and counted it. -/
def counted (s : ConnState ι) : Heap ι Unit :=
  { s.heap with
    list := fun i ↦ if i ∈ s.freed then none else s.heap.list i
    items := fun _ ↦ s.heap.items () - s.freed.length }

/-- The connections on the list.  Only the count and the freed connections are not as they should
be. -/
structure Tracks (s : ConnState ι) (conns : List ι) : Prop where
  holds : Holds s.counted fun _ ↦ conns
  accepted : ∀ i ∈ s.freed, s.heap.list i = some ()
  disconnected : ∀ i, s.disconnected i = true → i ∈ s.freed
  fault : s.fault = false

variable {conns : List ι}

namespace Tracks

theorem mem_iff (h : s.Tracks conns) : i ∈ conns ↔ i ∉ s.freed ∧ s.heap.list i = some () := by
  rw [← h.holds.list i ()]
  unfold counted
  dsimp only
  split_ifs with hfreed
  · exact iff_of_false (fun heq ↦ by cases heq) fun hnot ↦ hnot.1 hfreed
  · exact (and_iff_right hfreed).symm

theorem not_freed (h : s.Tracks conns) (hi : i ∈ conns) : i ∉ s.freed :=
  (h.mem_iff.mp hi).1

theorem not_disconnected (h : s.Tracks conns) (hi : i ∈ conns) : s.disconnected i = false :=
  Bool.eq_false_iff.mpr fun hstate ↦ h.not_freed hi (h.disconnected i hstate)

theorem head_mem (h : s.Tracks conns) (hi : s.heap.head () = some i) : i ∈ conns := by
  have hhead := (h.holds.forward ()).head_eq
  exact List.mem_of_mem_head? (hhead.symm.trans hi)

theorem next_mem (h : s.Tracks conns) {j : ι} (hj : j ∈ conns) (hi : s.heap.next j = some i) :
    i ∈ conns :=
  (h.holds.forward ()).mem_of_next hj hi

end Tracks

theorem tracks_create : (create : ConnState ι).Tracks [] := by
  refine ⟨⟨fun _ ↦ rfl, fun _ ↦ rfl, ?_, fun _ ↦ List.nodup_nil, fun _ ↦ rfl⟩, ?_, ?_, rfl⟩
  · intro i a
    exact iff_of_false (fun heq ↦ by cases heq) List.not_mem_nil
  · intro i hi
    cases hi
  · intro i hi
    cases hi

/-- The count is right as long as nothing was removed. -/
theorem Tracks.sound_iff (h : s.Tracks conns) : s.Sound ↔ s.freed = [] := by
  constructor
  · rintro ⟨⟨conns', hlist⟩, -⟩
    obtain rfl : conns' = conns := hlist.forward.unique (h.holds.forward ())
    have hitems : s.heap.items () - s.freed.length = conns'.length := h.holds.items ()
    rw [hlist.items] at hitems
    exact List.eq_nil_of_length_eq_zero (by omega)
  · intro hfreed
    refine ⟨⟨conns, h.holds.forward (), h.holds.backward (), h.holds.nodup (), ?_, ?_⟩, h.fault⟩
    · exact fun i hi ↦ (h.mem_iff.mp hi).2
    · have hitems : s.heap.items () - s.freed.length = conns.length := h.holds.items ()
      simpa [hfreed] using hitems

/-! ## One step -/

/-- What a step can do. -/
theorem step_cases {event : ConnEvent ι} (hstep : s.step event = some s') : s.fault = false ∧
    ((∃ i, event = .accept i ∧ s.loop = none ∧ s.heap.list i = none ∧
        s' = { s with heap := s.heap.add () i .atTail }) ∨
      (∃ fdCount, event = .select fdCount ∧ s.loop = none ∧ fdCount ≠ 0 ∧
        s' = s.advance none fdCount) ∨
      (∃ ready i fdCount, event = .turn ready ∧ s.loop = some (some i, fdCount) ∧ fdCount ≠ 0 ∧
        s' = s.turn i fdCount ready) ∨
      (event = .leave ∧ s' = { s with loop := none }) ∨
      ∃ i, event = .close i ∧ s.loop = none ∧ s.heap.list i = some () ∧ s' = s.closed i) := by
  unfold ConnState.step at hstep
  split_ifs at hstep with hfault
  refine ⟨Bool.eq_false_iff.mpr hfault, ?_⟩
  cases event with
  | accept i =>
      dsimp only at hstep
      split_ifs at hstep with hguard
      rw [Bool.and_eq_true, Option.isNone_iff_eq_none, Option.isNone_iff_eq_none] at hguard
      exact .inl ⟨i, rfl, hguard.1, hguard.2, (Option.some.inj hstep).symm⟩
  | select fdCount =>
      dsimp only at hstep
      split_ifs at hstep with hguard
      rw [Bool.and_eq_true, Option.isNone_iff_eq_none, bne_iff_ne] at hguard
      exact .inr (.inl ⟨fdCount, rfl, hguard.1, hguard.2, (Option.some.inj hstep).symm⟩)
  | turn ready =>
      dsimp only at hstep
      split at hstep
      · next i fdCount hloop =>
          split_ifs at hstep with hcount
          exact .inr (.inr (.inl ⟨ready, i, fdCount, rfl, hloop, hcount,
            (Option.some.inj hstep).symm⟩))
      · cases hstep
  | leave =>
      dsimp only at hstep
      split at hstep
      · split_ifs at hstep
        exact .inr (.inr (.inr (.inl ⟨rfl, (Option.some.inj hstep).symm⟩)))
      · cases hstep
  | close i =>
      dsimp only at hstep
      split_ifs at hstep with hguard
      rw [Bool.and_eq_true, Option.isNone_iff_eq_none] at hguard
      obtain ⟨_, hlist⟩ := Option.isSome_iff_exists.mp hguard.2
      exact .inr (.inr (.inr (.inr ⟨i, rfl, hguard.1, hlist, (Option.some.inj hstep).symm⟩)))

/-- A connection that was never accepted is added at the tail. -/
theorem Tracks.accept (h : s.Tracks conns) (hi : s.heap.list i = none) :
    Tracks { s with heap := s.heap.add () i .atTail } (conns ++ [i]) := by
  have hfreed : i ∉ s.freed := by
    intro hmem
    rw [h.accepted i hmem] at hi
    cases hi
  have hlist : (fun j ↦ if j ∈ s.freed then none
      else Function.update s.heap.list i (some ()) j) =
        Function.update (fun j ↦ if j ∈ s.freed then none else s.heap.list j) i (some ()) := by
    funext j
    by_cases hj : j = i
    · subst hj
      simp [hfreed]
    · simp [hj]
  have hitems : (fun _ ↦ s.heap.items () + 1 - s.freed.length) =
      Function.update (fun _ : Unit ↦ s.heap.items () - s.freed.length) ()
        (s.heap.items () - s.freed.length + 1) := by
    funext a
    rw [Function.update_self]
    omega
  have hcounted : counted { s with heap := s.heap.add () i .atTail } =
      s.counted.add () i .atTail := by
    simp only [counted, Heap.add_atTail, Function.update_self, hlist, hitems]
  refine ⟨?_, ?_, h.disconnected, h.fault⟩
  · have hadd := h.holds.add (x := i) (by simp [counted, hi]) ()
    rw [Function.update_eq_const_of_subsingleton] at hadd
    rw [hcounted]
    exact hadd
  · intro j hj
    have hne : j ≠ i := by
      rintro rfl
      exact hfreed hj
    rw [Heap.add_atTail]
    simpa [hne] using h.accepted j hj

theorem Tracks.neighbour_ne (h : s.Tracks conns) (hi : i ∈ conns) :
    s.heap.next i ≠ some i ∧ s.heap.prev i ≠ some i :=
  h.holds.neighbour_ne (a := ()) hi

theorem Tracks.unlink_eq (h : s.Tracks conns) (hi : i ∈ conns) : s.heap.unlink i =
    { s.heap.remove () i with list := s.heap.list, items := s.heap.items } := by
  obtain ⟨hnext, hprev⟩ := h.neighbour_ne hi
  refine Heap.unlink_eq hprev hnext ?_ ?_
  · have hnone := (h.holds.backward ()).next_eq_none_iff
      (List.nodup_reverse.mpr (h.holds.nodup ())) (List.mem_reverse.mpr hi)
    rw [List.getLast?_reverse, ← (h.holds.forward ()).head_eq] at hnone
    exact hnone
  · calc s.heap.next i = none
      _ ↔ conns.getLast? = some i := (h.holds.forward ()).next_eq_none_iff (h.holds.nodup ()) hi
      _ ↔ s.heap.tail () = some i := h.holds.tail_eq_some_iff.symm

/-- To unlink is to remove, if the connection is counted. -/
theorem Tracks.counted_unlink (h : s.Tracks conns) (hi : i ∈ conns) :
    counted { s with heap := s.heap.unlink i, freed := i :: s.freed } = s.counted.remove () i := by
  obtain ⟨hnext, hprev⟩ := h.neighbour_ne hi
  have hitems : (fun _ ↦ s.heap.items () - (i :: s.freed).length) =
      Function.update (fun _ : Unit ↦ s.heap.items () - s.freed.length) ()
        (s.heap.items () - s.freed.length - 1) := by
    funext a
    rw [Function.update_self, List.length_cons]
    omega
  have hlist : (fun j ↦ if j ∈ i :: s.freed then none else s.heap.list j) =
      Function.update (fun j ↦ if j ∈ s.freed then none else s.heap.list j) i none := by
    funext j
    by_cases hj : j = i
    · subst hj
      simp
    · simp [hj]
  rw [s.counted.remove_eq () i hprev hnext]
  simp only [counted, h.unlink_eq hi, s.heap.remove_eq () i hprev hnext, hlist, hitems]
  rfl

/-- A connection of the list is unlinked and freed, and the one before it is still on the list. -/
theorem Tracks.connRemove (h : s.Tracks conns) (hi : i ∈ conns) :
    Tracks (s.connRemove i).1 (conns.erase i) ∧
      ∀ j, (s.connRemove i).2 = some j → j ∈ conns.erase i := by
  obtain ⟨hnext, hprev⟩ := h.neighbour_ne hi
  have hunlink := h.unlink_eq hi
  unfold ConnState.connRemove
  rw [if_neg (h.not_freed hi)]
  refine ⟨⟨?_, ?_, ?_, h.fault⟩, ?_⟩
  · have hremove := h.holds.remove (a := ()) hi
    rw [Function.update_eq_const_of_subsingleton, ← h.counted_unlink hi] at hremove
    exact hremove
  · intro j hj
    dsimp only
    rw [hunlink]
    rcases List.mem_cons.mp hj with rfl | hj
    · exact (h.mem_iff.mp hi).2
    · exact h.accepted j hj
  · intro j hj
    exact List.mem_cons_of_mem i (h.disconnected j hj)
  · intro j hj
    dsimp only at hj
    rw [hunlink, s.heap.remove_eq () i hprev hnext] at hj
    dsimp only at hj
    rw [if_neg hnext] at hj
    have hmem := (h.holds.backward ()).mem_of_next (List.mem_reverse.mpr hi) hj
    refine (List.mem_erase_of_ne ?_).mpr (List.mem_reverse.mp hmem)
    rintro rfl
    exact hprev hj

/-- The loop is at a connection of the list. -/
def AtConn (s : ConnState ι) (conns : List ι) : Prop :=
  ∀ i fdCount, s.loop = some (some i, fdCount) → i ∈ conns

/-- Nothing was used after it was freed. -/
def Tracked (s : ConnState ι) : Prop :=
  ∃ conns, s.Tracks conns ∧ s.AtConn conns

/-- The loop goes on to a connection of the list. -/
theorem Tracks.advance (h : s.Tracks conns) {item : Option ι}
    (hitem : ∀ i, item = some i → i ∈ conns) (fdCount : ℤ) : (s.advance item fdCount).Tracked := by
  cases item with
  | none =>
      refine ⟨conns, ⟨h.holds, h.accepted, h.disconnected, h.fault⟩, ?_⟩
      intro i fdCount' hloop
      exact h.head_mem (congrArg Prod.fst (Option.some.inj hloop))
  | some i =>
      have hi := hitem i rfl
      unfold ConnState.advance
      dsimp only
      rw [if_neg (h.not_freed hi)]
      refine ⟨conns, ⟨h.holds, h.accepted, h.disconnected, h.fault⟩, ?_⟩
      intro j fdCount' hloop
      exact h.next_mem hi (congrArg Prod.fst (Option.some.inj hloop))

/-- The player of a connection on the list is not in `STATE_DISCONNECT`, so that the loop does not
free the connection that it is at. -/
theorem Tracks.connKickOutput_eq (h : s.Tracks conns) (hi : i ∈ conns) (output : Bool) :
    s.connKickOutput i output = s := by
  unfold ConnState.connKickOutput
  rw [h.not_disconnected hi]
  simp

/-- The loop uses no connection that was freed. -/
theorem Tracks.turn (h : s.Tracks conns) (hi : i ∈ conns) (fdCount : ℤ) (ready : Ready) :
    (s.turn i fdCount ready).Tracked := by
  obtain ⟨hremove, hprev⟩ := h.connRemove hi
  have hsame : ∀ j, some i = some j → j ∈ conns := by
    intro j hj
    rwa [← Option.some.inj hj]
  rcases turn_cases (h.not_freed hi) fdCount ready with ⟨-, left, hturn⟩ | ⟨-, left, hturn⟩
  · rw [hturn]
    exact hremove.advance hprev left
  · rw [h.connKickOutput_eq hi, or_self] at hturn
    rw [hturn]
    exact h.advance hsame left

/-- A connection is closed that was not removed before. -/
def Current (s : ConnState ι) : ConnEvent ι → Prop
  | .close i => i ∉ s.freed
  | _ => True

/-- A connection of the list is closed. -/
theorem Tracks.closed (h : s.Tracks conns) (hi : i ∈ conns) :
    (s.closed i).Tracks (conns.erase i) := by
  obtain ⟨hremove, -⟩ := h.connRemove hi
  refine ⟨hremove.holds, hremove.accepted, ?_, hremove.fault⟩
  intro j hj
  by_cases hji : j = i
  · subst hji
    unfold ConnState.closed ConnState.connClose ConnState.connRemove
    rw [if_neg (h.not_freed hi)]
    exact List.mem_cons_self
  · refine hremove.disconnected j ?_
    unfold ConnState.closed at hj
    dsimp only at hj
    rwa [Function.update_of_ne hji] at hj

theorem closed_loop (i : ι) (s : ConnState ι) : (s.closed i).loop = s.loop := by
  unfold ConnState.closed ConnState.connClose ConnState.connRemove
  split_ifs <;> rfl

theorem Tracked.step {event : ConnEvent ι} (h : s.Tracked) (hcurrent : s.Current event)
    (hstep : s.step event = some s') : s'.Tracked := by
  obtain ⟨conns, h, hat⟩ := h
  obtain ⟨-, ⟨i, -, hloop, hlist, rfl⟩ | ⟨fdCount, -, -, -, rfl⟩ |
    ⟨ready, i, fdCount, -, hloop, -, rfl⟩ | ⟨-, rfl⟩ | ⟨i, rfl, hloop, hlist, rfl⟩⟩ :=
    step_cases hstep
  · refine ⟨conns ++ [i], h.accept hlist, ?_⟩
    intro j fdCount hj
    cases hloop.symm.trans hj
  · exact h.advance (fun i hi ↦ by cases hi) fdCount
  · exact h.turn (hat i fdCount hloop) fdCount ready
  · refine ⟨conns, ⟨h.holds, h.accepted, h.disconnected, h.fault⟩, ?_⟩
    intro i fdCount hi
    cases hi
  · refine ⟨conns.erase i, h.closed (h.mem_iff.mpr ⟨hcurrent, hlist⟩), ?_⟩
    intro j fdCount hj
    rw [closed_loop, hloop] at hj
    cases hj

/-- To close a connection that was removed is a fault. -/
theorem fault_of_not_current {event : ConnEvent ι} (hcurrent : ¬ s.Current event)
    (hstep : s.step event = some s') : s'.fault = true := by
  obtain ⟨-, ⟨i, rfl, -⟩ | ⟨fdCount, rfl, -⟩ | ⟨ready, i, fdCount, rfl, -⟩ | ⟨rfl, -⟩ |
    ⟨i, rfl, -, -, rfl⟩⟩ := step_cases hstep
  · exact absurd trivial hcurrent
  · exact absurd trivial hcurrent
  · exact absurd trivial hcurrent
  · exact absurd trivial hcurrent
  · have hfreed : i ∈ s.freed := not_not.mp hcurrent
    unfold closed connClose connRemove
    rw [if_pos hfreed]

end ConnState

end HavokMud.LinkedList
