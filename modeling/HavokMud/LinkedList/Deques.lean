import HavokMud.LinkedList.Lists

/-!
# Lists as double-ended queues

Items are added at both ends of any number of lists and removed from anywhere.  A list read from its
tail is the list read from its head with both kinds of links exchanged.
-/

namespace HavokMud.LinkedList

open Interaction Locking

variable {ι τ : Type}

/-! ## The heap read backwards -/

namespace Heap

/-- Both kinds of links exchanged. -/
def mirror (h : Heap ι τ) : Heap ι τ :=
  { h with
    prev := h.next
    next := h.prev
    head := h.tail
    tail := h.head }

variable [DecidableEq ι] [DecidableEq τ]

theorem add_atHead (h : Heap ι τ) (a : τ) (x : ι) :
    h.add a x .atHead = (h.mirror.add a x .atTail).mirror := by
  rw [add_atTail]
  cases hhead : h.head a with
  | none =>
      simp [add, fixNext, fixPrev, fixEnds, mirror, hhead]
      funext y
      simp [Function.update_apply]
  | some first =>
      by_cases hx : x = first
      · subst hx
        simp [add, fixNext, fixPrev, fixEnds, mirror, hhead]
        funext y
        simp only [Function.update_apply, eq_comm]
        split_ifs <;> rfl
      · simp [add, fixNext, fixPrev, fixEnds, mirror, hhead, hx]
        funext y
        simp [Function.update_apply, eq_comm]

end Heap

theorem Holds.mirror {h : Heap ι τ} {lists : τ → List ι} (hh : Holds h lists) :
    Holds h.mirror fun a ↦ (lists a).reverse := by
  refine ⟨hh.backward, ?_, ?_, ?_, ?_⟩
  · intro a
    rw [List.reverse_reverse]
    exact hh.forward a
  · intro x a
    rw [List.mem_reverse]
    exact hh.list x a
  · exact fun a ↦ List.nodup_reverse.mpr (hh.nodup a)
  · intro a
    rw [List.length_reverse]
    exact hh.items a

/-! ## Calls -/

/-- The calls for a list.  A caller that passes `LOCKED` has locked the list itself. -/
inductive Call (ι τ : Type)
  | lock (list : τ)
  | unlock (list : τ)
  | add (list : τ) (item : ι) (locked : Bool) (location : Location)
  | remove (list : τ) (item : ι) (locked : Bool)

variable [DecidableEq ι] [DecidableEq τ]

def Call.exec (h : Heap ι τ) : Call ι τ → Locking τ (Heap ι τ)
  | .lock list => linkedListLock true list list h
  | .unlock list => linkedListUnlock true list list h
  | .add list item locked location => linkedListAdd true list list h item locked location
  | .remove list item locked => linkedListRemove true list list h item locked

/-- One call after the other. -/
def runCalls (h : Heap ι τ) (calls : List (Call ι τ)) : Locking τ (Heap ι τ) :=
  calls.foldlM Call.exec h

/-- Every list is as `LinkedListCreate` leaves it, and no item is on a list. -/
def New (h : Heap ι τ) : Prop :=
  (∀ a, h.create a = h) ∧ ∀ x, h.list x = none

/-! ## Double-ended queues -/

/-- An item is put at one end. -/
def insertAt (location : Location) (x : ι) (xs : List ι) : List ι :=
  match location with
  | .atHead => x :: xs
  | .atTail => xs ++ [x]

/-- What a call does to the queues. -/
def Call.deques (lists : τ → List ι) : Call ι τ → τ → List ι
  | .lock _ | .unlock _ => lists
  | .add a x _ location => Function.update lists a (insertAt location x (lists a))
  | .remove a x _ => Function.update lists a ((lists a).erase x)

/-- The lists that the caller has locked. -/
def Call.held (held : Finset τ) : Call ι τ → Finset τ
  | .lock a => insert a held
  | .unlock a => held.erase a
  | .add _ _ _ _ | .remove _ _ _ => held

/-- An item that is added is on no list, and what is locked is not locked again. -/
def Call.Permitted (lists : τ → List ι) (held : Finset τ) : Call ι τ → Prop
  | .lock a => a ∉ held
  | .unlock a => a ∈ held
  | .add a x locked _ => (∀ b, x ∉ lists b) ∧ (locked = false → a ∉ held)
  | .remove a x locked => x ∈ lists a → locked = false → a ∉ held

/-- Every call is permitted where it is made. -/
def Permitted (lists : τ → List ι) (held : Finset τ) : List (Call ι τ) → Prop
  | [] => True
  | call :: calls => call.Permitted lists held ∧
      Permitted (call.deques lists) (call.held held) calls

section Deques

variable {h : Heap ι τ} {lists : τ → List ι} {held : Finset τ} {a : τ} {x : ι}

/-- An item on no list is added at either end. -/
theorem Holds.insertAt (hh : Holds h lists) (hx : ∀ b, x ∉ lists b) (a : τ) (location : Location) :
    Holds (h.add a x location) (Function.update lists a (insertAt location x (lists a))) := by
  have hnone : h.list x = none := by
    rw [Option.eq_none_iff_forall_ne_some]
    exact fun b hb ↦ hx b ((hh.list x b).mp hb)
  cases location with
  | atTail => exact hh.add hnone a
  | atHead =>
      have hback := (hh.mirror.add (x := x) hnone a).mirror
      rw [h.add_atHead]
      convert hback using 1
      funext b
      by_cases hb : b = a
      · subst hb
        rw [Function.update_self, Function.update_self, List.reverse_append, List.reverse_reverse]
        rfl
      · rw [Function.update_of_ne hb, Function.update_of_ne hb, List.reverse_reverse]

theorem linkedListRemove_of_notMem (hh : Holds h lists) (hx : x ∉ lists a) (locked : Bool)
    (held : Finset τ) : linkedListRemove true a a h x locked held = .ok (h, held) := by
  unfold linkedListRemove
  rw [if_pos (fun hlist ↦ hx ((hh.list x a).mp hlist))]
  rfl

/-- One call. -/
theorem Holds.exec {call : Call ι τ} (hh : Holds h lists) (hpermitted : call.Permitted lists held) :
    ∃ h', call.exec h held = .ok (h', call.held held) ∧ Holds h' (call.deques lists) := by
  cases call with
  | lock a => exact ⟨_, linkedListLock_eq (fun _ ↦ hpermitted) a h, hh.setLocked a true⟩
  | unlock a => exact ⟨_, rfl, hh.setLocked a false⟩
  | add a x locked location =>
      obtain ⟨hx, hfree⟩ := hpermitted
      exact ⟨_, linkedListAdd_eq (fun hlocked _ ↦ hfree hlocked) a h x,
        (hh.insertAt hx a location).settle a locked⟩
  | remove a x locked =>
      by_cases hx : x ∈ lists a
      · have hlist : h.list x = some a := (hh.list x a).mpr hx
        exact ⟨_, linkedListRemove_eq (fun hlocked _ ↦ hpermitted hx hlocked) hlist,
          (hh.remove hx).settle a locked⟩
      · refine ⟨h, linkedListRemove_of_notMem hh hx locked held, ?_⟩
        change Holds h (Function.update lists a ((lists a).erase x))
        rwa [List.erase_of_not_mem hx, Function.update_eq_self]

theorem Holds.runCalls {calls : List (Call ι τ)} (hh : Holds h lists)
    (hpermitted : Permitted lists held calls) :
    ∃ h', runCalls h calls held = .ok (h', calls.foldl Call.held held) ∧
      Holds h' (calls.foldl Call.deques lists) := by
  induction calls generalizing h lists held with
  | nil => exact ⟨h, rfl, hh⟩
  | cons call calls ih =>
      obtain ⟨hcall, hrest⟩ := hpermitted
      obtain ⟨h₁, hexec, hh₁⟩ := hh.exec hcall
      obtain ⟨h', hrun, hh'⟩ := ih hh₁ hrest
      refine ⟨h', ?_, hh'⟩
      unfold LinkedList.runCalls
      rw [List.foldlM_cons, bind_of_ok hexec]
      exact hrun

omit [DecidableEq ι] in
theorem New.holds (hnew : New h) : Holds h fun _ ↦ [] := by
  obtain ⟨hcreate, hlist⟩ := hnew
  have hends : ∀ a, h.head a = none ∧ h.tail a = none ∧ h.items a = 0 := by
    intro a
    rw [← hcreate a]
    exact ⟨Function.update_self .., Function.update_self .., Function.update_self ..⟩
  refine ⟨fun a ↦ (hends a).1, fun a ↦ (hends a).2.1, ?_, fun _ ↦ List.nodup_nil,
    fun a ↦ (hends a).2.2⟩
  intro x a
  rw [hlist x]
  exact iff_of_false (fun heq ↦ by cases heq) List.not_mem_nil

/-- What is seen of the lists when they are these double-ended queues. -/
structure Shows (h : Heap ι τ) (held : Finset τ) (lists : τ → List ι) : Prop where
  forward : ∀ a, Linked h.next (h.head a) (lists a)
  backward : ∀ a, Linked h.prev (h.tail a) (lists a).reverse
  nodup : ∀ a, (lists a).Nodup
  items : ∀ a, h.items a = (lists a).length
  count : ∀ a locked, (locked = false → a ∉ held) → ∃ h',
    linkedListCount true a a h locked held = .ok ((h', (lists a).length), held)
  list : ∀ x a, h.list x = some a ↔ x ∈ lists a
  absent : ∀ a x locked, x ∉ lists a →
    linkedListRemove true a a h x locked held = .ok (h, held)

theorem Holds.shows (hh : Holds h lists) (held : Finset τ) : Shows h held lists := by
  refine ⟨hh.forward, hh.backward, hh.nodup, hh.items, ?_, hh.list, ?_⟩
  · intro a locked hfree
    rw [← hh.items]
    cases locked with
    | true => exact ⟨h, rfl⟩
    | false => exact ⟨_, linkedListCount_eq (fun _ ↦ hfree rfl) a h⟩
  · exact fun a x locked hx ↦ linkedListRemove_of_notMem hh hx locked held

/-- Whatever is added and removed, each list is the double-ended queue of its items. -/
theorem lists_are_deques {calls : List (Call ι τ)} (hnew : New h)
    (hpermitted : Permitted (fun _ ↦ []) ∅ calls) :
    ∃ h', runCalls h calls ∅ = .ok (h', calls.foldl Call.held ∅) ∧
      Shows h' (calls.foldl Call.held ∅) (calls.foldl Call.deques fun _ ↦ []) := by
  obtain ⟨h', hrun, hh'⟩ := hnew.holds.runCalls hpermitted
  exact ⟨h', hrun, hh'.shows _⟩

end Deques

/-- Two lists, to which three items are added and from which one is removed. -/
theorem lists_are_deques_two :
    let calls : List (Call ℕ Bool) := [.add true 1 false .atTail, .lock true,
      .add true 2 true .atHead, .unlock true, .add false 3 false .atHead, .remove true 1 false,
      .remove true 3 false]
    let h : Heap ℕ Bool := ⟨fun _ ↦ none, fun _ ↦ none, fun _ ↦ none, fun _ ↦ none, fun _ ↦ none,
      fun _ ↦ 0, fun _ ↦ false⟩
    ∃ h', runCalls h calls ∅ = .ok (h', ∅) ∧
      Shows h' ∅ fun list ↦ if list then [2] else [3] := by
  intro calls h
  have hnew : New h := by
    refine ⟨?_, fun _ ↦ rfl⟩
    intro a
    simp [Heap.create, h]
  have hpermitted : Permitted (fun _ ↦ []) ∅ calls := by
    simp [calls, Permitted, Call.Permitted, Call.deques, Call.held, LinkedList.insertAt]
  have hlists : (calls.foldl Call.deques fun _ ↦ []) = fun list ↦ if list then [2] else [3] := by
    funext list
    cases list <;> rfl
  obtain ⟨h', hrun, hshows⟩ := lists_are_deques hnew hpermitted
  rw [hlists] at hshows
  exact ⟨h', hrun, hshows⟩

end HavokMud.LinkedList
