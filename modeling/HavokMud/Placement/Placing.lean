import HavokMud.Placement.World

/-!
# One place for each object

In a sound world a live object is in a room, with a character, worn, in another object or nowhere,
and it is on the list of its place.  Containers are nested without end only downwards to a depth.
-/

namespace HavokMud.Placement

open Interaction Locking LinkedList

/-- What the lists of a world stand for, and how deep an object is inside others. -/
structure Layout where
  contain : Obj → List Obj
  content : ℤ → List Obj
  chain : Character → List Obj
  depth : Obj → ℕ
  deepest : ℕ

/-- A live object is in at most one place, and on the list of that place. -/
structure Sound (w : World) (l : Layout) : Prop where
  contain : Holds w.contain l.contain
  content : Holds w.content l.content
  chain : ∀ ch, Linked w.nextContent (w.carrying ch) (l.chain ch)
  nodup_chain : ∀ ch, (l.chain ch).Nodup
  mem_contain : ∀ o p, o ∈ l.contain p ↔ o ∈ w.live ∧ w.inObj o = some p
  mem_content : ∀ o r, o ∈ l.content r ↔ o ∈ w.live ∧ w.inRoom o = r ∧ r ≠ -1
  mem_chain : ∀ o ch, o ∈ l.chain ch ↔ o ∈ w.live ∧ w.carriedBy o = some ch
  has_room : ∀ o ∈ w.live, w.inRoom o ≠ -1 → w.rooms.has (w.inRoom o) = true
  room_only : ∀ o ∈ w.live, w.inRoom o ≠ -1 →
    w.carriedBy o = none ∧ w.equippedBy o = none ∧ w.inObj o = none
  carried_only : ∀ o ∈ w.live, w.carriedBy o ≠ none → w.equippedBy o = none ∧ w.inObj o = none
  equipped_only : ∀ o ∈ w.live, w.equippedBy o ≠ none → w.inObj o = none
  inside : ∀ o ∈ w.live, ∀ p, w.inObj o = some p → p ∈ w.live ∧ l.depth p < l.depth o
  depth_le : ∀ o, l.depth o ≤ l.deepest
  lt_nextObj : ∀ o ∈ w.live, o < w.nextObj

/-- An object that is in no place. -/
structure Nowhere (w : World) (obj : Obj) : Prop where
  room : w.inRoom obj = -1
  carried : w.carriedBy obj = none
  equipped : w.equippedBy obj = none
  inside : w.inObj obj = none

variable {real : Bool} {fuel : ℕ} {held : Finset Mutex} {w : World} {l : Layout} {obj : Obj}
  {locked : Bool}

/-! ## Rooms -/

theorem Sound.content_list (hs : Sound w l) (hobj : obj ∈ w.live) {room : ℤ}
    (hroom : w.inRoom obj = room) (hne : room ≠ -1) : w.content.list obj = some room :=
  (hs.content.list obj room).mpr ((hs.mem_content obj room).mpr ⟨hobj, hroom, hne⟩)

/-- An object that is in no room is on the list of none. -/
theorem Sound.content_list_none (hs : Sound w l) (hroom : w.inRoom obj = -1) :
    w.content.list obj = none := by
  rw [Option.eq_none_iff_forall_ne_some]
  intro room hlist
  obtain ⟨-, hin, hne⟩ := (hs.mem_content obj room).mp ((hs.content.list obj room).mp hlist)
  exact hne (hin.symm.trans hroom)

theorem Sound.not_mem_chain (hs : Sound w l) (hcarried : w.carriedBy obj = none)
    (ch : Character) : obj ∉ l.chain ch := by
  intro hmem
  have hby := ((hs.mem_chain obj ch).mp hmem).2
  rw [hcarried] at hby
  cases hby

/-- The world after an object was taken out of its room. -/
def outOfRoom (obj : Obj) (locked : Bool) (w : World) : World :=
  { w with
    content := (w.content.remove (w.inRoom obj) obj).settle (w.inRoom obj) locked
    inRoom := Function.update w.inRoom obj (-1)
    nextContent := Function.update w.nextContent obj none }

theorem objectTakeFromRoom_eq (hs : Sound w l) (hobj : obj ∈ w.live)
    (hfree : locked = false → Free real (.content (w.inRoom obj)) held) :
    objectTakeFromRoom real obj locked w held =
      .ok (if w.inRoom obj ≤ -1 then w else outOfRoom obj locked w, held) := by
  unfold objectTakeFromRoom
  by_cases hroom : w.inRoom obj ≤ -1
  · simp [hroom]
  · have hne : w.inRoom obj ≠ -1 := by omega
    have hhas := hs.has_room obj hobj hne
    have hrun := linkedListRemove_eq hfree (hs.content_list hobj rfl hne)
    have hif : ¬ (w.inRoom obj ≤ -1 ∨ w.rooms.has (w.inRoom obj) = false) := by
      simp [hroom, hhas]
    simp only [if_neg hif, if_neg hroom]
    rw [bind_of_ok hrun]
    rfl

theorem sound_outOfRoom (hs : Sound w l) (hobj : obj ∈ w.live) (hroom : w.inRoom obj ≠ -1)
    (locked : Bool) :
    Sound (outOfRoom obj locked w)
      { l with content := Function.update l.content (w.inRoom obj)
                ((l.content (w.inRoom obj)).erase obj) } := by
  have hcarried := (hs.room_only obj hobj hroom).1
  have hmem := (hs.mem_content obj _).mpr ⟨hobj, rfl, hroom⟩
  refine
    { hs with
      content := (hs.content.remove hmem).settle _ _
      chain := fun ch ↦ (hs.chain ch).congr fun o ho ↦ Function.update_of_ne ?_ _ _
      mem_content := fun o r ↦ ?_
      has_room := fun o ho hin ↦ ?_
      room_only := fun o ho hin ↦ ?_ }
  · rintro rfl
    exact hs.not_mem_chain hcarried ch ho
  · by_cases ho : o = obj <;> by_cases hr : r = w.inRoom obj
    · subst ho hr
      simp [outOfRoom, (hs.content.nodup _).mem_erase_iff, eq_comm]
    · subst ho
      simp only [outOfRoom, Function.update_self, Function.update_of_ne hr, hs.mem_content]
      grind
    · subst hr
      simp [outOfRoom, ho, List.mem_erase_of_ne ho, hs.mem_content]
    · simp [outOfRoom, ho, hr, hs.mem_content]
  · by_cases heq : o = obj
    · subst heq
      simp [outOfRoom] at hin
    · simp only [outOfRoom, Function.update_of_ne heq] at hin ⊢
      exact hs.has_room o ho hin
  · by_cases heq : o = obj
    · subst heq
      simp [outOfRoom] at hin
    · simp only [outOfRoom, Function.update_of_ne heq] at hin ⊢
      exact hs.room_only o ho hin

theorem nowhere_outOfRoom (hs : Sound w l) (hobj : obj ∈ w.live)
    (hroom : w.inRoom obj ≠ -1) (locked : Bool) :
    Nowhere (outOfRoom obj locked w) obj := by
  obtain ⟨hcarried, hequipped, hinside⟩ := hs.room_only obj hobj hroom
  exact ⟨Function.update_self _ _ _, hcarried, hequipped, hinside⟩

/-- The world after an object that was nowhere was put into a room. -/
def intoRoom (obj : Obj) (room : ℤ) (locked : Bool) (w : World) : World :=
  { w with
    content := (w.content.add room obj .atTail).settle room locked
    inRoom := Function.update w.inRoom obj room
    carriedBy := Function.update w.carriedBy obj none
    equippedBy := Function.update w.equippedBy obj none }

theorem sound_intoRoom (hs : Sound w l) (hobj : obj ∈ w.live) (hnowhere : Nowhere w obj) {room : ℤ}
    (hhas : w.rooms.has room = true) (locked : Bool) :
    Sound (intoRoom obj room locked w)
      { l with content := Function.update l.content room (l.content room ++ [obj]) } := by
  have hne : room ≠ -1 := by
    rintro rfl
    rw [w.rooms.nowhere] at hhas
    cases hhas
  have hcarried : Function.update w.carriedBy obj none = w.carriedBy := by
    rw [← hnowhere.carried, Function.update_eq_self]
  have hequipped : Function.update w.equippedBy obj none = w.equippedBy := by
    rw [← hnowhere.equipped, Function.update_eq_self]
  have hworld : intoRoom obj room locked w =
      { w with
        content := (w.content.add room obj .atTail).settle room locked
        inRoom := Function.update w.inRoom obj room } := by
    rw [intoRoom, hcarried, hequipped]
  rw [hworld]
  refine
    { hs with
      content := (hs.content.add (hs.content_list_none hnowhere.room) room).settle _ _
      mem_content := fun o r ↦ ?_
      has_room := fun o ho hin ↦ ?_
      room_only := fun o ho hin ↦ ?_ }
  · by_cases ho : o = obj <;> by_cases hr : r = room
    · subst ho hr
      simp [hobj, hne]
    · subst ho
      simp [hr, hs.mem_content, hnowhere.room, Ne.symm hr]
      grind
    · subst hr
      simp [ho, hs.mem_content]
    · simp [ho, hr, hs.mem_content]
  · by_cases heq : o = obj
    · subst heq
      simpa using hhas
    · simp only [Function.update_of_ne heq] at hin ⊢
      exact hs.has_room o ho hin
  · by_cases heq : o = obj
    · subst heq
      exact ⟨hnowhere.carried, hnowhere.equipped, hnowhere.inside⟩
    · simp only [Function.update_of_ne heq] at hin
      exact hs.room_only o ho hin

/-- The room that `objectPutInRoom` is asked for. -/
def roomAsked (room : ℤ) : ℤ :=
  if room = -1 then 4 else room

/-- `objectPutInRoom` leaves the object where it is. -/
def RoomRefused (obj : Obj) (room : ℤ) (w : World) : Prop :=
  (w.equippedBy obj).isSome ∨ w.eqPos obj ≠ -1 ∨ w.rooms.has (toInt (roomAsked room)) = false ∨
    w.inRoom obj = roomAsked room

/-- An object that is not carried and not in an object is put into a room. -/
theorem Sound.putInRoom (hs : Sound w l) (hobj : obj ∈ w.live) (room : ℤ)
    (hguard : RoomRefused obj room w ∨
      w.carriedBy obj = none ∧ w.inObj obj = none ∧ -1 ≤ w.inRoom obj) :
    ∃ w' l', objectPutInRoom false obj room locked w held = .ok (w', held) ∧ Sound w' l' ∧
      w'.live = w.live := by
  unfold objectPutInRoom
  by_cases hrefused : RoomRefused obj room w
  · refine ⟨w, l, ?_, hs, rfl⟩
    have hif : (w.equippedBy obj).isSome ∨ w.eqPos obj ≠ -1 ∨
        w.rooms.has (toInt (if room = -1 then 4 else room)) = false ∨
          w.inRoom obj = if room = -1 then 4 else room := hrefused
    simp only [if_pos hif]
    rfl
  · obtain ⟨hcarried, hinside, hroom⟩ := hguard.resolve_left hrefused
    have hif : ¬ ((w.equippedBy obj).isSome ∨ w.eqPos obj ≠ -1 ∨
        w.rooms.has (toInt (if room = -1 then 4 else room)) = false ∨
          w.inRoom obj = if room = -1 then 4 else room) := hrefused
    unfold RoomRefused roomAsked at hrefused
    push Not at hrefused
    obtain ⟨hequipped, -, hhas, -⟩ := hrefused
    have hequipped : w.equippedBy obj = none := by simpa using hequipped
    have hhas : w.rooms.has (toInt (if room = -1 then 4 else room)) = true := by simpa using hhas
    have hout : ∃ w₁ l₁, (if -1 < w.inRoom obj then objectTakeFromRoom false obj false w
        else pure w : Locking Mutex World) held = .ok (w₁, held) ∧ Sound w₁ l₁ ∧
          Nowhere w₁ obj ∧ w₁.live = w.live ∧ w₁.rooms = w.rooms := by
      by_cases hin : -1 < w.inRoom obj
      · have hne : w.inRoom obj ≠ -1 := by omega
        refine ⟨outOfRoom obj false w, _, ?_, sound_outOfRoom hs hobj hne false,
          nowhere_outOfRoom hs hobj hne false, rfl, rfl⟩
        rw [if_pos hin, objectTakeFromRoom_eq hs hobj fun _ ↦ free_false _ _, if_neg (by omega)]
      · rw [if_neg hin]
        exact ⟨w, l, rfl, hs, ⟨by omega, hcarried, hequipped, hinside⟩, rfl, rfl⟩
    obtain ⟨w₁, l₁, hrun, hs₁, hnowhere, hlive, hrooms⟩ := hout
    rw [← hrooms] at hhas
    rw [← hlive] at hobj
    refine ⟨intoRoom obj (toInt (if room = -1 then 4 else room)) locked w₁, _, ?_,
      sound_intoRoom hs₁ hobj hnowhere hhas locked, hlive⟩
    simp only [if_neg hif]
    rw [bind_of_ok hrun, bind_of_ok (linkedListAdd_eq (fun _ ↦ free_false _ _) _ _ _)]
    rfl

/-! ## Characters -/

/-- The world after an object that was nowhere was given to a character. -/
def intoHands (obj : Obj) (ch : Character) (w : World) : World :=
  { w with
    nextContent := Function.update w.nextContent obj (w.carrying ch)
    carrying := Function.update w.carrying ch (some obj)
    carriedBy := Function.update w.carriedBy obj (some ch)
    carryWeight := Function.update w.carryWeight ch (w.carryWeight ch + w.weight obj)
    carryItems := Function.update w.carryItems ch (w.carryItems ch + 1) }

theorem objectGiveToChar_eq (hnowhere : Nowhere w obj) (ch : Character) :
    objectGiveToChar obj ch w = intoHands obj ch w := by
  obtain ⟨hroom, hcarried, hequipped, hinside⟩ := hnowhere
  have hroom' : Function.update w.inRoom obj (-1) = w.inRoom := by
    rw [← hroom, Function.update_eq_self]
  have hequipped' : Function.update w.equippedBy obj none = w.equippedBy := by
    rw [← hequipped, Function.update_eq_self]
  have hinside' : Function.update w.inObj obj none = w.inObj := by
    rw [← hinside, Function.update_eq_self]
  have hif : ¬ ((w.inObj obj).isSome ∨ (w.carriedBy obj).isSome ∨ (w.equippedBy obj).isSome ∨
      w.inRoom obj ≠ -1) := by
    simp [hroom, hcarried, hequipped, hinside]
  rw [objectGiveToChar, if_neg hif, hroom', hequipped', hinside']
  rfl

/-- An object that is somewhere is not given to a character. -/
theorem objectGiveToChar_of_somewhere (hnot : ¬ Nowhere w obj) (ch : Character) :
    objectGiveToChar obj ch w = w := by
  unfold objectGiveToChar
  refine if_pos ?_
  by_contra hif
  push Not at hif
  obtain ⟨hinside, hcarried, hequipped, hroom⟩ := hif
  exact hnot ⟨hroom, by simpa using hcarried, by simpa using hequipped, by simpa using hinside⟩

theorem sound_intoHands (hs : Sound w l) (hobj : obj ∈ w.live) (hnowhere : Nowhere w obj)
    (ch : Character) :
    Sound (intoHands obj ch w)
      { l with chain := Function.update l.chain ch (obj :: l.chain ch) } := by
  have hnot := hs.not_mem_chain hnowhere.carried
  have hkeep : ∀ ch', ∀ o ∈ l.chain ch',
      Function.update w.nextContent obj (w.carrying ch) o = w.nextContent o := by
    intro ch' o ho
    refine Function.update_of_ne ?_ _ _
    rintro rfl
    exact hnot ch' ho
  refine
    { hs with
      chain := fun ch' ↦ ?_
      nodup_chain := fun ch' ↦ ?_
      mem_chain := fun o ch' ↦ ?_
      room_only := fun o ho hin ↦ ?_
      carried_only := fun o ho hby ↦ ?_ }
  · by_cases hch : ch' = ch
    · subst hch
      simp only [intoHands, Function.update_self]
      refine ⟨rfl, ?_⟩
      rw [Function.update_self]
      exact (hs.chain ch').congr (hkeep ch')
    · simp only [intoHands, Function.update_of_ne hch]
      exact (hs.chain ch').congr (hkeep ch')
  · by_cases hch : ch' = ch
    · subst hch
      simp only [Function.update_self]
      exact List.nodup_cons.mpr ⟨hnot ch', hs.nodup_chain ch'⟩
    · simp only [Function.update_of_ne hch]
      exact hs.nodup_chain ch'
  · by_cases ho : o = obj <;> by_cases hch : ch' = ch
    · subst ho hch
      simp [intoHands, hobj]
    · subst ho
      simp [intoHands, hch, hnot ch', Ne.symm hch]
    · subst hch
      simp [intoHands, ho, hs.mem_chain]
    · simp [intoHands, ho, hch, hs.mem_chain]
  · have hne : o ≠ obj := by
      rintro rfl
      exact hin hnowhere.room
    simp only [intoHands, Function.update_of_ne hne]
    exact hs.room_only o ho hin
  · by_cases heq : o = obj
    · subst heq
      exact ⟨hnowhere.equipped, hnowhere.inside⟩
    · simp only [intoHands, Function.update_of_ne heq] at hby
      exact hs.carried_only o ho hby

/-- `objectGiveToChar` keeps a world sound. -/
theorem Sound.giveToChar (hs : Sound w l) (hobj : obj ∈ w.live) (ch : Character) :
    ∃ l', Sound (objectGiveToChar obj ch w) l' ∧ (objectGiveToChar obj ch w).live = w.live := by
  by_cases hnowhere : Nowhere w obj
  · rw [objectGiveToChar_eq hnowhere]
    exact ⟨_, sound_intoHands hs hobj hnowhere ch, rfl⟩
  · rw [objectGiveToChar_of_somewhere hnowhere]
    exact ⟨l, hs, rfl⟩

theorem findBefore_eq {next : Obj → Option Obj} {p : Option Obj} {before after : List Obj}
    {tmp : Obj} (hlinked : Linked next p (before ++ tmp :: obj :: after))
    (hnodup : (before ++ tmp :: obj :: after).Nodup) (hfuel : before.length < fuel) :
    findBefore next obj fuel p held = .ok (some tmp, held) := by
  induction before generalizing p fuel with
  | nil =>
      obtain ⟨rfl, hnext, -⟩ := hlinked
      obtain ⟨fuel, rfl⟩ : ∃ less, fuel = less + 1 := ⟨fuel - 1, by simp at hfuel; omega⟩
      simp [findBefore, hnext]
  | cons o before ih =>
      obtain ⟨rfl, hlinked⟩ := hlinked
      obtain ⟨-, hnodup⟩ := List.nodup_cons.mp hnodup
      simp only [List.length_cons] at hfuel
      obtain ⟨fuel, rfl⟩ : ∃ less, fuel = less + 1 := ⟨fuel - 1, by omega⟩
      have hne : next o ≠ some obj := by
        rw [hlinked.head_eq]
        intro hhead
        cases before with
        | nil =>
            obtain rfl := Option.some.inj hhead
            simp at hnodup
        | cons o' before =>
            obtain rfl := Option.some.inj hhead
            simp at hnodup
      rw [findBefore, if_neg hne]
      exact ih hlinked hnodup (by omega)

/-- A world in which the object is off the chain of its character. -/
theorem sound_leaveChar (hs : Sound w l) (hobj : obj ∈ w.live) {ch : Character}
    (hby : w.carriedBy obj = some ch) {carrying : Character → Option Obj}
    {next : Obj → Option Obj}
    (hhere : Linked next (carrying ch) ((l.chain ch).erase obj))
    (helse : ∀ ch', ch' ≠ ch → carrying ch' = w.carrying ch' ∧
      ∀ o ∈ l.chain ch', next o = w.nextContent o) :
    Sound (leaveChar obj ch { w with carrying, nextContent := next })
        { l with chain := Function.update l.chain ch ((l.chain ch).erase obj) } ∧
      Nowhere (leaveChar obj ch { w with carrying, nextContent := next }) obj := by
  have hcarried : w.carriedBy obj ≠ none := by simp [hby]
  obtain ⟨hequipped, hinside⟩ := hs.carried_only obj hobj hcarried
  have hroom : w.inRoom obj = -1 := by
    by_contra hne
    exact hcarried (hs.room_only obj hobj hne).1
  have hequipped' : Function.update w.equippedBy obj none = w.equippedBy := by
    rw [← hequipped, Function.update_eq_self]
  have hinside' : Function.update w.inObj obj none = w.inObj := by
    rw [← hinside, Function.update_eq_self]
  have hmem : obj ∈ l.chain ch := (hs.mem_chain obj ch).mpr ⟨hobj, hby⟩
  have hworld : leaveChar obj ch { w with carrying, nextContent := next } =
      { w with
        carrying
        carryWeight := Function.update w.carryWeight ch (w.carryWeight ch - w.weight obj)
        carryItems := Function.update w.carryItems ch (w.carryItems ch - 1)
        carriedBy := Function.update w.carriedBy obj none
        nextContent := Function.update next obj none } := by
    simp only [leaveChar, hequipped', hinside']
  rw [hworld]
  refine ⟨{ hs with
    chain := fun ch' ↦ ?_
    nodup_chain := fun ch' ↦ ?_
    mem_chain := fun o ch' ↦ ?_
    room_only := fun o ho hin ↦ ?_
    carried_only := fun o ho hby ↦ ?_ }, hroom, Function.update_self _ _ _, hequipped, hinside⟩
  · by_cases hch : ch' = ch
    · subst hch
      simp only [Function.update_self]
      refine hhere.congr fun o ho ↦ Function.update_of_ne ?_ _ _
      rintro rfl
      exact ((hs.nodup_chain ch').mem_erase_iff.mp ho).1 rfl
    · simp only [Function.update_of_ne hch]
      rw [(helse ch' hch).1]
      refine (hs.chain ch').congr fun o ho ↦ ?_
      have hne : o ≠ obj := by
        rintro rfl
        have hby' := ((hs.mem_chain o ch').mp ho).2
        exact hch (Option.some.inj (hby'.symm.trans hby))
      rw [Function.update_of_ne hne]
      exact (helse ch' hch).2 o ho
  · by_cases hch : ch' = ch
    · subst hch
      simp only [Function.update_self]
      exact (hs.nodup_chain ch').erase obj
    · simp only [Function.update_of_ne hch]
      exact hs.nodup_chain ch'
  · by_cases ho : o = obj <;> by_cases hch : ch' = ch
    · subst ho hch
      simp [(hs.nodup_chain ch').mem_erase_iff]
    · subst ho
      have hnot : o ∉ l.chain ch' := fun hmem' ↦
        hch (Option.some.inj (((hs.mem_chain o ch').mp hmem').2.symm.trans hby))
      simp [hch, hnot]
    · subst hch
      simp [ho, List.mem_erase_of_ne ho, hs.mem_chain]
    · simp [ho, hch, hs.mem_chain]
  · have hne : o ≠ obj := by
      rintro rfl
      exact hin hroom
    simp only [Function.update_of_ne hne]
    exact hs.room_only o ho hin
  · have hne : o ≠ obj := by
      rintro rfl
      simp at hby
    simp only [Function.update_of_ne hne] at hby
    exact hs.carried_only o ho hby

/-- `objectTakeFromChar` takes a carried object off the chain of its character. -/
theorem objectTakeFromChar_eq (hs : Sound w l) (hobj : obj ∈ w.live) {ch : Character}
    (hby : w.carriedBy obj = some ch) :
    ∃ carrying next,
      (∀ held, ∀ fuel ≥ (l.chain ch).length, objectTakeFromChar fuel obj w held =
        .ok (leaveChar obj ch { w with carrying, nextContent := next }, held)) ∧
      Sound (leaveChar obj ch { w with carrying, nextContent := next })
        { l with chain := Function.update l.chain ch ((l.chain ch).erase obj) } ∧
      Nowhere (leaveChar obj ch { w with carrying, nextContent := next }) obj := by
  have hmem : obj ∈ l.chain ch := (hs.mem_chain obj ch).mpr ⟨hobj, hby⟩
  obtain ⟨hequipped, hinside⟩ := hs.carried_only obj hobj (by simp [hby])
  have hlinked := hs.chain ch
  have hnodup := hs.nodup_chain ch
  have hcarrying : w.carrying ch ≠ none := by
    intro hnone
    rw [hlinked.head_eq, List.head?_eq_none_iff] at hnone
    rw [hnone] at hmem
    cases hmem
  have hif : ¬ (w.carrying ch = none ∨ (w.inObj obj).isSome ∨ (w.equippedBy obj).isSome) := by
    simp [hcarrying, hequipped, hinside]
  obtain ⟨before, after, hsplit⟩ := List.append_of_mem hmem
  unfold objectTakeFromChar
  rw [hby]
  simp only [if_neg hif]
  rw [hsplit] at hlinked hnodup
  rcases List.eq_nil_or_concat before with rfl | ⟨before, tmp, rfl⟩
  · -- the first of the chain
    refine ⟨Function.update w.carrying ch (w.nextContent obj), w.nextContent, ?_, ?_⟩
    · intro held fuel _
      rw [if_pos hlinked.1]
      rfl
    · refine sound_leaveChar hs hobj hby ?_ fun ch' hch ↦ ⟨Function.update_of_ne hch _ _, ?_⟩
      · rw [hsplit, Function.update_self, List.nil_append, List.erase_cons_head]
        exact hlinked.2
      · exact fun _ _ ↦ rfl
  · -- behind another object
    simp only [List.concat_eq_append, List.append_assoc, List.singleton_append] at *
    have hfirst : w.carrying ch ≠ some obj := by
      rw [hlinked.head_eq]
      intro hhead
      cases before with
      | nil =>
          obtain rfl := Option.some.inj hhead
          simp at hnodup
      | cons o before =>
          obtain rfl := Option.some.inj hhead
          simp at hnodup
    refine ⟨w.carrying, Function.update w.nextContent tmp (w.nextContent obj), ?_, ?_⟩
    · intro held fuel hfuel
      have hlength : before.length < fuel := by
        rw [hsplit] at hfuel
        simp only [List.length_append, List.length_cons] at hfuel
        omega
      rw [if_neg hfirst, bind_of_ok (findBefore_eq hlinked hnodup hlength)]
      rfl
    · refine sound_leaveChar hs hobj hby ?_ fun ch' hch ↦ ⟨rfl, fun o ho ↦ ?_⟩
      · have herase : (l.chain ch).erase obj = before ++ tmp :: after := by
          have hne : tmp ≠ obj := by
            rintro rfl
            simpa using (List.nodup_append.mp hnodup).2.1
          have hnot : obj ∉ before := fun hbefore ↦
            (List.nodup_append.mp hnodup).2.2 obj hbefore obj (by simp) rfl
          rw [hsplit, List.erase_append_right _ hnot, List.erase_cons_tail (by simpa using hne),
            List.erase_cons_head]
        rw [herase]
        exact hlinked.bypass hnodup
      · refine Function.update_of_ne ?_ _ _
        rintro rfl
        have htmp : o ∈ l.chain ch := by simp [hsplit]
        have hby₁ := ((hs.mem_chain o ch).mp htmp).2
        have hby₂ := ((hs.mem_chain o ch').mp ho).2
        exact hch (Option.some.inj (hby₂.symm.trans hby₁))

end HavokMud.Placement
