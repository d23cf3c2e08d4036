import HavokMud.Placement.Placing
import Mathlib.Logic.Relation

/-!
# Objects in objects

The containers of an object are a chain through `in_obj`, along which `objectPutInObject` and
`objectTakeFromObject` keep the weights.
-/

namespace HavokMud.Placement

open Interaction Locking LinkedList

variable {real : Bool} {fuel : ℕ} {held : Finset Mutex} {w : World} {l : Layout} {obj objTo : Obj}
  {locked : Bool} {containers : List Obj}

/-- An object is another one, or in it at some depth. -/
def Inside (w : World) : Obj → Obj → Prop :=
  Relation.ReflTransGen fun o p ↦ w.inObj o = some p

/-- The containers from an object on, beginning with itself. -/
structure Containers (w : World) (l : Layout) (obj : Obj) (containers : List Obj) : Prop where
  linked : Linked w.inObj (some obj) containers
  nodup : containers.Nodup
  live : ∀ o ∈ containers, o ∈ w.live
  depth_le : ∀ o ∈ containers, l.depth o ≤ l.depth obj

/-- An object in a sound world has finitely many containers. -/
theorem Sound.exists_containers (hs : Sound w l) (hobj : obj ∈ w.live) :
    ∃ containers, Containers w l obj containers := by
  induction hdepth : l.depth obj using Nat.strong_induction_on generalizing obj with
  | _ n ih =>
      cases hin : w.inObj obj with
      | none =>
          refine ⟨[obj], ⟨rfl, hin⟩, List.nodup_singleton obj, ?_, ?_⟩
          · intro o ho
            rwa [List.mem_singleton.mp ho]
          · intro o ho
            rw [List.mem_singleton.mp ho]
      | some p =>
          obtain ⟨hp, hlt⟩ := hs.inside obj hobj p hin
          obtain ⟨containers, hc⟩ := ih (l.depth p) (hdepth ▸ hlt) hp rfl
          refine ⟨obj :: containers, ⟨rfl, hin ▸ hc.linked⟩, ?_, ?_, ?_⟩
          · refine List.nodup_cons.mpr ⟨fun hmem ↦ ?_, hc.nodup⟩
            exact absurd (hc.depth_le obj hmem) (by omega)
          · intro o ho
            rcases List.mem_cons.mp ho with rfl | ho
            · exact hobj
            · exact hc.live o ho
          · intro o ho
            rcases List.mem_cons.mp ho with rfl | ho
            · exact le_rfl
            · exact (hc.depth_le o ho).trans hlt.le

theorem Containers.exists_top (hc : Containers w l obj containers) :
    ∃ top, containers.getLast? = some top := by
  cases containers with
  | nil => cases hc.linked
  | cons o containers => exact ⟨_, List.getLast?_cons⟩

theorem mem_iff_inside (hlinked : Linked w.inObj (some obj) containers) (o : Obj) :
    o ∈ containers ↔ Inside w obj o := by
  induction containers generalizing obj with
  | nil => cases hlinked
  | cons p containers ih =>
      obtain ⟨hp, hrest⟩ := hlinked
      obtain rfl := Option.some.inj hp
      unfold Inside
      rw [List.mem_cons, Relation.ReflTransGen.cases_head_iff]
      cases hin : w.inObj obj with
      | none =>
          rw [hin] at hrest
          have hnil : containers = [] := by
            cases containers with
            | nil => rfl
            | cons q _ => cases hrest.1
          simp [hnil, eq_comm]
      | some q =>
          rw [hin] at hrest
          rw [ih hrest, eq_comm]
          simp [Inside]

/-! ## Weights -/

/-- More or less weight for an object and its containers. -/
def weigh (containers : List Obj) (change : ℤ) (w : World) : World :=
  { w with weight := fun o ↦ if o ∈ containers then w.weight o + change else w.weight o }

theorem addWeights_eq (held : Finset Mutex) {p : Option Obj} (hlinked : Linked w.inObj p containers)
    (hnodup : containers.Nodup) (hobj : obj ∉ containers) (hfuel : containers.length ≤ fuel) :
    addWeights obj fuel p w held = .ok (weigh containers (w.weight obj) w, held) := by
  induction containers generalizing p w fuel with
  | nil =>
      rw [linked_nil.mp hlinked]
      cases fuel <;> simp [addWeights, weigh]
  | cons o containers ih =>
      obtain ⟨rfl, hlinked⟩ := hlinked
      obtain ⟨ho, hnodup⟩ := List.nodup_cons.mp hnodup
      simp only [List.length_cons] at hfuel
      obtain ⟨fuel, rfl⟩ : ∃ less, fuel = less + 1 := ⟨fuel - 1, by omega⟩
      rw [List.mem_cons, not_or] at hobj
      obtain ⟨hne, hobj⟩ := hobj
      rw [addWeights, ih (by exact hlinked) hnodup hobj (by omega)]
      congr 2
      simp only [weigh, Function.update_of_ne hne]
      congr 1
      funext x
      by_cases hx : x = o
      · subst hx
        simp [ho]
      · simp [hx]

theorem subtractWeights_eq (held : Finset Mutex) {top : Obj}
    (hlinked : Linked w.inObj (some objTo) containers) (htop : containers.getLast? = some top)
    (hnodup : containers.Nodup) (hobj : obj ∉ containers) (hfuel : containers.length ≤ fuel) :
    subtractWeights obj fuel objTo w held =
      .ok ((weigh containers (-w.weight obj) w, top), held) := by
  induction containers generalizing objTo w fuel with
  | nil => cases hlinked
  | cons o containers ih =>
      obtain ⟨heq, hlinked⟩ := hlinked
      obtain rfl := Option.some.inj heq
      obtain ⟨ho, hnodup⟩ := List.nodup_cons.mp hnodup
      simp only [List.length_cons] at hfuel
      obtain ⟨fuel, rfl⟩ : ∃ less, fuel = less + 1 := ⟨fuel - 1, by omega⟩
      rw [List.mem_cons, not_or] at hobj
      obtain ⟨hne, hobj⟩ := hobj
      have hweigh : ∀ w' : World,
          w' = { w with
            weight := Function.update w.weight objTo (w.weight objTo - w.weight obj) } →
          weigh containers (-w'.weight obj) w' =
            weigh (objTo :: containers) (-w.weight obj) w := by
        rintro w' rfl
        simp only [weigh, Function.update_of_ne hne]
        congr 1
        funext x
        by_cases hx : x = objTo
        · subst hx
          simp [ho, Int.sub_eq_add_neg]
        · simp [hx]
      unfold subtractWeights
      cases hin : w.inObj objTo with
      | none =>
          rw [hin] at hlinked
          have hnil : containers = [] := by
            cases containers with
            | nil => rfl
            | cons q _ => cases hlinked.1
          subst hnil
          obtain rfl : objTo = top := by simpa using htop
          rw [← hweigh _ rfl]
          simp [weigh]
      | some q =>
          rw [hin] at hlinked
          have htop' : containers.getLast? = some top := by
            cases containers with
            | nil => cases hlinked
            | cons q' containers => rwa [List.getLast?_cons_cons] at htop
          have hrun := ih (w := { w with
              weight := Function.update w.weight objTo (w.weight objTo - w.weight obj) })
            hlinked htop' hnodup hobj (by omega : containers.length ≤ fuel)
          rw [hweigh _ rfl] at hrun
          exact hrun

/-! ## Putting an object into another -/

/-- The world after an object that was nowhere was put into another one. -/
def intoObject (obj objTo : Obj) (containers : List Obj) (w : World) : World :=
  { weigh containers (w.weight obj) w with
    contain := (w.contain.add objTo obj .atTail).setLocked objTo false
    inObj := Function.update w.inObj obj (some objTo) }

theorem readRoomFlags_eq (hhas : w.inRoom obj ≠ -1 → w.rooms.has (w.inRoom obj) = true) :
    readRoomFlags obj w held = .ok ((), held) := by
  unfold readRoomFlags
  rw [if_neg]
  · rfl
  · rintro ⟨hroom, hnot⟩
    rw [hhas hroom] at hnot
    cases hnot

theorem Sound.contain_list_none (hs : Sound w l) (hinside : w.inObj obj = none) :
    w.contain.list obj = none := by
  rw [Option.eq_none_iff_forall_ne_some]
  intro p hlist
  obtain ⟨-, hin⟩ := (hs.mem_contain obj p).mp ((hs.contain.list obj p).mp hlist)
  rw [hinside] at hin
  cases hin

/-- `objectPutInObject` with mutexes that are no-ops. -/
theorem objectPutInObject_eq (hs : Sound w l) (hnowhere : Nowhere w obj)
    (hto : objTo ∈ w.live) (hne : obj ≠ objTo) (hc : Containers w l objTo containers)
    (hnot : obj ∉ containers) (hfuel : containers.length ≤ fuel) :
    objectPutInObject false fuel obj objTo w held =
      .ok (intoObject obj objTo containers w, held) := by
  obtain ⟨-, hcarried, hequipped, -⟩ := hnowhere
  have hcarried' : Function.update w.carriedBy obj none = w.carriedBy := by
    rw [← hcarried, Function.update_eq_self]
  have hequipped' : Function.update w.equippedBy obj none = w.equippedBy := by
    rw [← hequipped, Function.update_eq_self]
  have hlinked : Linked (Function.update w.inObj obj (some objTo)) (some objTo) containers := by
    refine hc.linked.congr fun o ho ↦ Function.update_of_ne ?_ _ _
    rintro rfl
    exact hnot ho
  have hadd := addWeights_eq held (w := { w with
      contain := ((w.contain.setLocked objTo true).add objTo obj .atTail).settle objTo false
      inObj := Function.update w.inObj obj (some objTo) }) hlinked hc.nodup hnot hfuel
  have hlocked : objectPutInObjectLocked false fuel obj objTo
      { w with contain := w.contain.setLocked objTo true } held =
        .ok (intoObject obj objTo containers w, held) := by
    unfold objectPutInObjectLocked
    simp only [if_neg hne]
    rw [bind_of_ok (linkedListAdd_eq (fun _ ↦ free_false _ _) _ _ _)]
    simp only [hcarried', hequipped']
    rw [bind_of_ok hadd]
    refine (bind_of_ok (readRoomFlags_eq (hs.has_room objTo hto)) _).trans ?_
    rw [Heap.add_setLocked]
    simp only [Heap.settle, Bool.false_eq_true, if_false, Heap.setLocked_setLocked]
    rfl
  unfold objectPutInObject
  rw [bind_of_ok (linkedListLock_eq (free_false _ _) _ _)]
  refine (bind_of_ok hlocked _).trans ?_
  refine (bind_of_ok (linkedListUnlock_eq (free_false _ _) _ _) _).trans ?_
  simp only [intoObject, Heap.setLocked_setLocked]
  rfl

/-- An object is not put into itself. -/
theorem objectPutInObject_self (hfree : Free real (.contain obj) held) :
    objectPutInObject real fuel obj obj w held =
      .ok ({ w with contain := w.contain.setLocked obj false }, held) := by
  unfold objectPutInObject
  rw [bind_of_ok (linkedListLock_eq hfree _ _)]
  have hlocked : objectPutInObjectLocked real fuel obj obj
      { w with contain := w.contain.setLocked obj true } (holding real (.contain obj) held) =
        .ok ({ w with contain := w.contain.setLocked obj true },
          holding real (.contain obj) held) := by
    unfold objectPutInObjectLocked
    simp only [if_true]
    rfl
  refine (bind_of_ok hlocked _).trans ?_
  refine (bind_of_ok (linkedListUnlock_eq hfree _ _) _).trans ?_
  rw [Heap.setLocked_setLocked]
  rfl

open Classical in
/-- How deep objects are once an object was put into another one. -/
noncomputable def deeper (obj objTo : Obj) (w : World) (l : Layout) : Layout :=
  { l with
    contain := Function.update l.contain objTo (l.contain objTo ++ [obj])
    depth := fun o ↦ if Inside w o obj then l.depth o + (l.depth objTo + 1) else l.depth o
    deepest := l.deepest + (l.depth objTo + 1) }

theorem sound_intoObject (hs : Sound w l) (hobj : obj ∈ w.live) (hnowhere : Nowhere w obj)
    (hto : objTo ∈ w.live) (hnot : ¬ Inside w objTo obj) (containers : List Obj) :
    Sound (intoObject obj objTo containers w) (deeper obj objTo w l) := by
  have hlist := hs.contain_list_none hnowhere.inside
  refine
    { hs with
      contain := (hs.contain.add hlist objTo).setLocked objTo false
      mem_contain := fun o p ↦ ?_
      room_only := fun o ho hin ↦ ?_
      carried_only := fun o ho hby ↦ ?_
      equipped_only := fun o ho hby ↦ ?_
      inside := fun o ho p hin ↦ ?_
      depth_le := fun o ↦ ?_ }
  · by_cases ho : o = obj <;> by_cases hp : p = objTo
    · subst ho hp
      simpa [intoObject, deeper, weigh] using hobj
    · subst ho
      simp [intoObject, deeper, hp, hs.mem_contain, hnowhere.inside, Ne.symm hp]
    · subst hp
      simp [intoObject, deeper, ho, hs.mem_contain, weigh]
    · simp [intoObject, deeper, ho, hp, hs.mem_contain, weigh]
  · have hne : o ≠ obj := by
      rintro rfl
      exact hin hnowhere.room
    simp only [intoObject, Function.update_of_ne hne]
    exact hs.room_only o ho hin
  · have hne : o ≠ obj := by
      rintro rfl
      exact hby hnowhere.carried
    simp only [intoObject, Function.update_of_ne hne]
    exact hs.carried_only o ho hby
  · have hne : o ≠ obj := by
      rintro rfl
      exact hby hnowhere.equipped
    simp only [intoObject, Function.update_of_ne hne]
    exact hs.equipped_only o ho hby
  · by_cases heq : o = obj
    · subst heq
      simp only [intoObject, Function.update_self, Option.some.injEq] at hin
      subst hin
      refine ⟨hto, ?_⟩
      have hself : Inside w o o := .refl
      simp only [deeper, if_neg hnot, if_pos hself]
      omega
    · simp only [intoObject, Function.update_of_ne heq] at hin
      obtain ⟨hp, hlt⟩ := hs.inside o ho p hin
      refine ⟨hp, ?_⟩
      have hsame : Inside w o obj ↔ Inside w p obj := by
        unfold Inside
        rw [Relation.ReflTransGen.cases_head_iff]
        have hin' : w.inObj o = some p := hin
        simp [heq, hin']
      by_cases hp' : Inside w p obj
      · simp only [deeper, if_pos hp', if_pos (hsame.mpr hp')]
        exact Nat.add_lt_add_right hlt _
      · simp only [deeper, if_neg hp', if_neg (mt hsame.mp hp')]
        exact hlt
  · have hle := hs.depth_le o
    simp only [deeper]
    split_ifs <;> omega

/-! ## Taking an object out of another -/

/-- The world after an object was taken out of another one. -/
def outOfObject (obj objFrom top : Obj) (containers : List Obj) (locked : Bool) (w : World) :
    World :=
  { weigh containers (-w.weight obj) w with
    contain := (w.contain.remove objFrom obj).settle objFrom locked
    inObj := Function.update w.inObj obj none
    carryWeight := match w.carriedBy top with
      | none => w.carryWeight
      | some ch => Function.update w.carryWeight ch (w.carryWeight ch - w.weight obj) }

theorem Sound.not_mem_containers (hs : Sound w l) (hobj : obj ∈ w.live)
    (hin : w.inObj obj = some objTo) (hc : Containers w l objTo containers) :
    obj ∉ containers := by
  intro hmem
  have hle := hc.depth_le obj hmem
  have hlt := (hs.inside obj hobj objTo hin).2
  omega

theorem objectTakeFromObject_eq (hs : Sound w l) (hobj : obj ∈ w.live)
    (hin : w.inObj obj = some objTo) (hc : Containers w l objTo containers) {top : Obj}
    (htop : containers.getLast? = some top)
    (hfree : locked = false → Free real (.contain objTo) held)
    (hfuel : containers.length ≤ fuel) :
    objectTakeFromObject real fuel obj locked w held =
      .ok (outOfObject obj objTo top containers locked w, held) := by
  have hcarried : w.carriedBy obj = none := by
    by_contra hne
    rw [(hs.carried_only obj hobj hne).2] at hin
    cases hin
  have hequipped : w.equippedBy obj = none := by
    by_contra hne
    rw [hs.equipped_only obj hobj hne] at hin
    cases hin
  have hroom : w.inRoom obj = -1 := by
    by_contra hne
    rw [(hs.room_only obj hobj hne).2.2] at hin
    cases hin
  have hnot := hs.not_mem_containers hobj hin hc
  have hlist : w.contain.list obj = some objTo :=
    (hs.contain.list obj objTo).mpr ((hs.mem_contain obj objTo).mpr ⟨hobj, hin⟩)
  have hto := (hs.inside obj hobj objTo hin).1
  have hweights := subtractWeights_eq held
    (w := { w with contain := (w.contain.remove objTo obj).settle objTo locked })
    hc.linked htop hc.nodup hnot hfuel
  have hif : ¬ ((w.carriedBy obj).isSome ∨ (w.equippedBy obj).isSome ∨ w.inRoom obj ≠ -1) := by
    simp [hcarried, hequipped, hroom]
  unfold objectTakeFromObject
  rw [hin]
  simp only [if_neg hif]
  rw [bind_of_ok (linkedListRemove_eq hfree hlist)]
  refine (bind_of_ok hweights _).trans ?_
  refine (bind_of_ok (readRoomFlags_eq (hs.has_room objTo hto)) _).trans ?_
  unfold outOfObject
  rw [pure_eq]
  congr 2
  cases hby : w.carriedBy top with
  | none => simp [weigh, hby]
  | some ch => simp [weigh, hby, hnot]

theorem objectTakeFromObject_of_none (hin : w.inObj obj = none) :
    objectTakeFromObject real fuel obj locked w held = .ok (w, held) := by
  unfold objectTakeFromObject
  rw [hin]
  rfl

/-- An object leaves its container, whatever that does to weights. -/
theorem sound_leaveObject (hs : Sound w l) (hobj : obj ∈ w.live)
    (hin : w.inObj obj = some objTo) (weight : Obj → ℤ) (carryWeight : Character → ℤ)
    (locked : Bool) :
    Sound { w with
        contain := (w.contain.remove objTo obj).settle objTo locked
        inObj := Function.update w.inObj obj none
        weight
        carryWeight }
      { l with contain := Function.update l.contain objTo ((l.contain objTo).erase obj) } := by
  have hmem : obj ∈ l.contain objTo := (hs.mem_contain obj objTo).mpr ⟨hobj, hin⟩
  refine
    { hs with
      contain := (hs.contain.remove hmem).settle objTo locked
      mem_contain := fun o p ↦ ?_
      room_only := fun o ho hroom ↦ ?_
      carried_only := fun o ho hby ↦ ?_
      equipped_only := fun o ho hby ↦ ?_
      inside := fun o ho p hin' ↦ ?_ }
  · by_cases ho : o = obj <;> by_cases hp : p = objTo
    · subst ho hp
      simp [(hs.contain.nodup p).mem_erase_iff]
    · subst ho
      simp [hp, hs.mem_contain, hin, Ne.symm hp]
    · subst hp
      simp [ho, List.mem_erase_of_ne ho, hs.mem_contain]
    · simp [ho, hp, hs.mem_contain]
  · obtain ⟨hcarried, hequipped, hinside⟩ := hs.room_only o ho hroom
    refine ⟨hcarried, hequipped, ?_⟩
    by_cases heq : o = obj
    · subst heq
      exact Function.update_self _ _ _
    · simpa [heq] using hinside
  · obtain ⟨hequipped, hinside⟩ := hs.carried_only o ho hby
    refine ⟨hequipped, ?_⟩
    by_cases heq : o = obj
    · subst heq
      exact Function.update_self _ _ _
    · simpa [heq] using hinside
  · by_cases heq : o = obj
    · subst heq
      exact Function.update_self _ _ _
    · simpa [heq] using hs.equipped_only o ho hby
  · by_cases heq : o = obj
    · subst heq
      simp at hin'
    · simp only [Function.update_of_ne heq] at hin'
      exact hs.inside o ho p hin'

theorem sound_outOfObject (hs : Sound w l) (hobj : obj ∈ w.live)
    (hin : w.inObj obj = some objTo) (top : Obj) (containers : List Obj) (locked : Bool) :
    Sound (outOfObject obj objTo top containers locked w)
      { l with contain := Function.update l.contain objTo ((l.contain objTo).erase obj) } :=
  sound_leaveObject hs hobj hin _ _ locked

/-! ## Making an object -/

/-- The world with a new object of a number. -/
def withNew (nr : ℤ) (w : World) : World :=
  { w with
    contain := (w.contain.clear w.nextObj).create w.nextObj
    content := w.content.clear w.nextObj
    global := ((w.global.clear w.nextObj).add nr w.nextObj .atHead).setLocked nr false
    inRoom := Function.update w.inRoom w.nextObj (-1)
    carriedBy := Function.update w.carriedBy w.nextObj none
    equippedBy := Function.update w.equippedBy w.nextObj none
    eqPos := Function.update w.eqPos w.nextObj (-1)
    inObj := Function.update w.inObj w.nextObj none
    nextContent := Function.update w.nextContent w.nextObj none
    weight := Function.update w.weight w.nextObj 0
    itemNumber := Function.update w.itemNumber w.nextObj nr
    index := Function.update w.index w.nextObj nr
    timer := Function.update w.timer w.nextObj 0
    costPerDay := Function.update w.costPerDay w.nextObj 0
    rare := Function.update w.rare w.nextObj false
    number := Function.update w.number nr (w.number nr + 1)
    objCount := w.objCount + 1
    live := {w.nextObj} ∪ w.live
    nextObj := w.nextObj + 1 }

theorem objectRead_eq (nr : ℤ) (w : World) (held : Finset Mutex) :
    objectRead false nr w held =
      .ok (if w.indexes nr = false then (w, none) else (withNew nr w, some w.nextObj), held) := by
  unfold objectRead
  by_cases hindex : w.indexes nr = false
  · simp only [if_pos hindex]
    rfl
  · simp only [if_neg hindex]
    rw [bind_of_ok (linkedListAdd_eq (fun _ ↦ free_false _ _) _ _ _)]
    rfl

theorem sound_withNew (hs : Sound w l) (nr : ℤ) : Sound (withNew nr w) l := by
  have hdead : w.nextObj ∉ w.live := fun hmem ↦ Nat.lt_irrefl _ (hs.lt_nextObj _ hmem)
  have hne : ∀ o ∈ w.live, o ≠ w.nextObj := by
    rintro o ho rfl
    exact hdead ho
  have hempty : l.contain w.nextObj = [] := by
    rw [List.eq_nil_iff_forall_not_mem]
    intro o ho
    obtain ⟨ho, hin⟩ := (hs.mem_contain o _).mp ho
    exact hdead (hs.inside o ho _ hin).1
  have hcontain : w.contain.list w.nextObj = none := by
    rw [Option.eq_none_iff_forall_ne_some]
    intro p hlist
    exact hdead ((hs.mem_contain _ p).mp ((hs.contain.list _ p).mp hlist)).1
  have hcontent : w.content.list w.nextObj = none := by
    rw [Option.eq_none_iff_forall_ne_some]
    intro r hlist
    exact hdead ((hs.mem_content _ r).mp ((hs.content.list _ r).mp hlist)).1
  have hlive : ∀ o, o ∈ (withNew nr w).live ↔ o = w.nextObj ∨ o ∈ w.live := by
    simp [withNew]
  refine
    { contain := (hs.contain.clear hcontain).create hempty
      content := hs.content.clear hcontent
      chain := fun ch ↦ (hs.chain ch).congr fun o ho ↦
        Function.update_of_ne (hne o ((hs.mem_chain o ch).mp ho).1) _ _
      nodup_chain := hs.nodup_chain
      mem_contain := fun o p ↦ ?_
      mem_content := fun o r ↦ ?_
      mem_chain := fun o ch ↦ ?_
      has_room := fun o ho hin ↦ ?_
      room_only := fun o ho hin ↦ ?_
      carried_only := fun o ho hby ↦ ?_
      equipped_only := fun o ho hby ↦ ?_
      inside := fun o ho p hin ↦ ?_
      depth_le := hs.depth_le
      lt_nextObj := fun o ho ↦ ?_ }
  · rw [hlive]
    by_cases ho : o = w.nextObj
    · subst ho
      simp [withNew, hs.mem_contain, hdead]
    · simp [withNew, hs.mem_contain, ho]
  · rw [hlive]
    by_cases ho : o = w.nextObj
    · subst ho
      simp [withNew, hs.mem_content, hdead, eq_comm]
    · simp [withNew, hs.mem_content, ho]
  · rw [hlive]
    by_cases ho : o = w.nextObj
    · subst ho
      simp [withNew, hs.mem_chain, hdead]
    · simp [withNew, hs.mem_chain, ho]
  · rcases (hlive o).mp ho with rfl | ho
    · simp [withNew] at hin
    · simp only [withNew, Function.update_of_ne (hne o ho)] at hin ⊢
      exact hs.has_room o ho hin
  · rcases (hlive o).mp ho with rfl | ho
    · simp [withNew] at hin
    · simp only [withNew, Function.update_of_ne (hne o ho)] at hin ⊢
      exact hs.room_only o ho hin
  · rcases (hlive o).mp ho with rfl | ho
    · simp [withNew] at hby
    · simp only [withNew, Function.update_of_ne (hne o ho)] at hby ⊢
      exact hs.carried_only o ho hby
  · rcases (hlive o).mp ho with rfl | ho
    · simp [withNew] at hby
    · simp only [withNew, Function.update_of_ne (hne o ho)] at hby ⊢
      exact hs.equipped_only o ho hby
  · rcases (hlive o).mp ho with rfl | ho
    · simp [withNew] at hin
    · simp only [withNew, Function.update_of_ne (hne o ho)] at hin
      obtain ⟨hp, hlt⟩ := hs.inside o ho p hin
      exact ⟨(hlive p).mpr (.inr hp), hlt⟩
  · rcases (hlive o).mp ho with rfl | ho
    · exact Nat.lt_succ_self _
    · exact (hs.lt_nextObj o ho).trans (Nat.lt_succ_self _)

end HavokMud.Placement
