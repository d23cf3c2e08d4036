import HavokMud.Interaction.Bounds
import HavokMud.LinkedList.Ancestors
import HavokMud.Placement.Places

/-!
# Containers without circles

`objectPutInObject` and `objectTakeFromObject` follow `in_obj` to the outermost container.  An
object is not put into itself, but it may be put into what is inside it, and then the loop over the
containers does not end.
-/

namespace HavokMud.Placement

open Interaction Locking LinkedList

/-- The calls that nest objects. -/
inductive Nest where
  | putInObject (obj objTo : Obj)
  | takeFromObject (obj : Obj) (locked : Bool)

/-- One call, with mutexes that are no-ops. -/
def Nest.run (fuel : ℕ) : Nest → World → Locking Mutex World
  | .putInObject obj objTo, w => objectPutInObject false fuel obj objTo w
  | .takeFromObject obj locked, w => objectTakeFromObject false fuel obj locked w

/-- An object is put into itself, which is refused, or into what is not inside it. -/
def Nest.Upward (w : World) : Nest → Prop
  | .putInObject obj objTo => obj = objTo ∨ ¬ Reached w.inObj (some objTo) obj
  | .takeFromObject _ _ => True

variable {fuel : ℕ} {held : Finset Mutex} {w : World} {obj objTo objFrom : Obj} {locked : Bool}

/-! ## The loops over the containers -/

/-- The world in which the containers of an object gain its weight. -/
def placed (obj objTo : Obj) (w : World) : World :=
  { w with
    contain := (w.contain.add objTo obj .atTail).setLocked objTo false
    inObj := Function.update w.inObj obj (some objTo)
    carriedBy := Function.update w.carriedBy obj none
    equippedBy := Function.update w.equippedBy obj none }

theorem objectPutInObject_eq_bind (hne : obj ≠ objTo) :
    objectPutInObject false fuel obj objTo w held =
      ((do
        let w ← addWeights obj fuel (some objTo) (placed obj objTo w)
        readRoomFlags objTo w
        pure { w with contain := w.contain.setLocked objTo false }) : Locking Mutex World)
        held := by
  have hlocked : objectPutInObjectLocked false fuel obj objTo
      { w with contain := w.contain.setLocked objTo true } held =
        ((do
          let w ← addWeights obj fuel (some objTo) (placed obj objTo w)
          readRoomFlags objTo w
          pure w) : Locking Mutex World) held := by
    unfold objectPutInObjectLocked
    simp only [if_neg hne]
    rw [bind_of_ok (linkedListAdd_eq (fun _ ↦ free_false _ _) _ _ _), Heap.add_setLocked]
    simp only [Heap.settle, Bool.false_eq_true, if_false, Heap.setLocked_setLocked]
    rfl
  unfold objectPutInObject
  rw [bind_of_ok (linkedListLock_eq (free_false _ _) _ _)]
  simp only [holding, Bool.false_eq_true, if_false, bind_eq, hlocked]
  cases addWeights obj fuel (some objTo) (placed obj objTo w) held with
  | error stop => rfl
  | ok r =>
      obtain ⟨w', held'⟩ := r
      simp only [Except.bind]
      cases readRoomFlags objTo w' held' with
      | error stop => rfl
      | ok r => rfl

/-- The world after the containers of an object lost its weight, with the outermost of them. -/
def removed (obj : Obj) (r : World × Obj) : World :=
  { r.1 with
    inObj := Function.update r.1.inObj obj none
    carryWeight := match r.1.carriedBy r.2 with
      | none => r.1.carryWeight
      | some ch => Function.update r.1.carryWeight ch (r.1.carryWeight ch - r.1.weight obj) }

/-- The loop over the containers does not end where the containers lead back. -/
theorem addWeights_circle {p : Obj} (hback : Reached w.inObj (some p) obj)
    (hround : Reached w.inObj (w.inObj obj) obj) :
    addWeights obj fuel (some p) w held = .error .unfinished := by
  induction fuel generalizing p w with
  | zero => rfl
  | succ fuel ih =>
      rw [addWeights]
      have hnext : Reached w.inObj (w.inObj p) obj := by
        rcases reached_some.mp hback with rfl | h
        · exact hround
        · exact h
      cases hp : w.inObj p with
      | none =>
          rw [hp] at hnext
          cases hnext
      | some q =>
          rw [hp] at hnext
          exact ih hnext hround

/-- An object that is put into what is inside it. -/
theorem putInObject_unfinished (hne : obj ≠ objTo) (hinside : Reached w.inObj (some objTo) obj) :
    objectPutInObject false fuel obj objTo w held = .error .unfinished := by
  rw [objectPutInObject_eq_bind hne]
  refine bind_of_error (addWeights_circle (hinside.update _) ?_) _
  simp only [placed, Function.update_self]
  exact hinside.update _

theorem Nest.unfinished {call : Nest} (hup : ¬ call.Upward w) (fuel : ℕ) (held : Finset Mutex) :
    call.run fuel w held = .error .unfinished := by
  cases call with
  | putInObject obj objTo =>
      obtain ⟨hne, hinside⟩ := not_or.mp hup
      exact putInObject_unfinished hne (not_not.mp hinside)
  | takeFromObject obj locked => exact absurd trivial hup

/-! ## Runs -/

end HavokMud.Placement
