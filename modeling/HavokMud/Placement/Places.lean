import HavokMud.Interaction.Bounds
import HavokMud.Placement.Nesting

/-!
# One place for each object in every run

Objects are read, put into rooms, objects and hands, and taken from them again.  `objectPutInRoom`
and `objectPutInObject` do not look at all the places in which an object can be, as
`objectGiveToChar` does.
-/

namespace HavokMud.Placement

open Interaction Locking LinkedList

inductive Op where
  | read (nr : ℤ)
  | putInRoom (obj : Obj) (room : ℤ) (locked : Bool)
  | takeFromRoom (obj : Obj) (locked : Bool)
  | giveToChar (obj : Obj) (ch : Character)
  | takeFromChar (obj : Obj)
  | putInObject (obj objTo : Obj)
  | takeFromObject (obj : Obj) (locked : Bool)

/-- One operation, with mutexes that are no-ops. -/
def Op.run (fuel : ℕ) : Op → World → Locking Mutex World
  | .read nr, w => do
      let (w, _) ← objectRead false nr w
      pure w
  | .putInRoom obj room locked, w => objectPutInRoom false obj room locked w
  | .takeFromRoom obj locked, w => objectTakeFromRoom false obj locked w
  | .giveToChar obj ch, w => pure (objectGiveToChar obj ch w)
  | .takeFromChar obj, w => objectTakeFromChar fuel obj w
  | .putInObject obj objTo, w => objectPutInObject false fuel obj objTo w
  | .takeFromObject obj locked, w => objectTakeFromObject false fuel obj locked w

/-- The operation is on objects that were read. -/
def Op.Live (w : World) : Op → Prop
  | .read _ => True
  | .putInRoom obj _ _ => obj ∈ w.live
  | .takeFromRoom obj _ => obj ∈ w.live
  | .giveToChar obj _ => obj ∈ w.live
  | .takeFromChar obj => obj ∈ w.live
  | .putInObject obj objTo => obj ∈ w.live ∧ objTo ∈ w.live
  | .takeFromObject obj _ => obj ∈ w.live

/-- The object is not put into a room or an object while it is somewhere that the function does not
look at. -/
def Op.Apart (w : World) : Op → Prop
  | .putInRoom obj room _ => RoomRefused obj room w ∨
      w.carriedBy obj = none ∧ w.inObj obj = none ∧ -1 ≤ w.inRoom obj
  | .putInObject obj objTo => obj = objTo ∨ Nowhere w obj ∧ ¬ Inside w objTo obj
  | _ => True

variable {w : World} {l : Layout} {obj objTo : Obj}

/-- One operation on a sound world gives a sound world. -/
theorem Sound.step (hs : Sound w l) {op : Op} (hlive : op.Live w) (hapart : op.Apart w) :
    ∃ w', Yields (fun fuel ↦ op.run fuel w) ∅ w' ∧ ∃ l', Sound w' l' := by
  cases op with
  | read nr =>
      have hrun := objectRead_eq nr w ∅
      split_ifs at hrun with hindex
      · exact ⟨w, .of_eq fun _ ↦ bind_of_ok hrun _, l, hs⟩
      · exact ⟨withNew nr w, .of_eq fun _ ↦ bind_of_ok hrun _, l, sound_withNew hs nr⟩
  | putInRoom obj room locked =>
      obtain ⟨w', l', hrun, hs', -⟩ : ∃ w' l', objectPutInRoom false obj room locked w ∅ =
          .ok (w', ∅) ∧ Sound w' l' ∧ w'.live = w.live :=
        hs.putInRoom hlive room hapart
      exact ⟨w', .of_eq fun _ ↦ hrun, l', hs'⟩
  | takeFromRoom obj locked =>
      have hrun : objectTakeFromRoom false obj locked w ∅ =
          .ok (if w.inRoom obj ≤ -1 then w else outOfRoom obj locked w, ∅) :=
        objectTakeFromRoom_eq hs hlive fun _ ↦ free_false _ _
      split_ifs at hrun with hroom
      · exact ⟨w, .of_eq fun _ ↦ hrun, l, hs⟩
      · have hne : w.inRoom obj ≠ -1 := by omega
        exact ⟨_, .of_eq fun _ ↦ hrun, _, sound_outOfRoom hs hlive hne locked⟩
  | giveToChar obj ch =>
      obtain ⟨l', hs', -⟩ := hs.giveToChar hlive ch
      exact ⟨_, .of_eq fun _ ↦ rfl, l', hs'⟩
  | takeFromChar obj =>
      cases hby : w.carriedBy obj with
      | none =>
          refine ⟨w, .of_eq fun fuel ↦ ?_, l, hs⟩
          simp [Op.run, objectTakeFromChar, hby]
      | some ch =>
          obtain ⟨carrying, next, hrun, hs', -⟩ := objectTakeFromChar_eq hs hlive hby
          exact ⟨_, ⟨_, hrun ∅⟩, _, hs'⟩
  | putInObject obj objTo =>
      obtain ⟨hobj, hto⟩ := hlive
      rcases hapart with rfl | ⟨hnowhere, hnot⟩
      · refine ⟨_, .of_eq fun fuel ↦ objectPutInObject_self (free_false _ _), l, ?_⟩
        exact { hs with contain := hs.contain.setLocked obj false }
      · obtain ⟨containers, hc⟩ := hs.exists_containers hto
        have hmem : obj ∉ containers := fun hmem ↦ hnot ((mem_iff_inside hc.linked obj).mp hmem)
        have hne : obj ≠ objTo := by
          rintro rfl
          exact hnot .refl
        exact ⟨_, ⟨_, fun fuel hfuel ↦ objectPutInObject_eq hs hnowhere hto hne hc hmem hfuel⟩, _,
          sound_intoObject hs hobj hnowhere hto hnot containers⟩
  | takeFromObject obj locked =>
      cases hin : w.inObj obj with
      | none => exact ⟨w, .of_eq fun fuel ↦ objectTakeFromObject_of_none hin, l, hs⟩
      | some objFrom =>
          obtain ⟨containers, hc⟩ := hs.exists_containers (hs.inside obj hlive objFrom hin).1
          obtain ⟨top, htop⟩ := hc.exists_top
          exact ⟨_, ⟨_, fun fuel hfuel ↦ objectTakeFromObject_eq hs hlive hin hc htop
            (fun _ ↦ free_false _ _) hfuel⟩, _,
            sound_outOfObject hs hlive hin top containers locked⟩

end HavokMud.Placement
