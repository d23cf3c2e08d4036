import HavokMud.Interaction.Bounds
import HavokMud.Placement.Forests
import HavokMud.Placement.Places

/-!
# The numbers of stored objects

`objectStore` gives each object that it saves the next number and tells it the number of the object
it is in.  An object that is not saved hands on the number that it was told.  What is saved is kept
here in the order of the calls of `db_save_object`.
-/

namespace HavokMud.Placement

open Interaction Locking LinkedList

/-- What `db_save_object` is told of an object, and the weight that the object has then. -/
structure Save where
  obj : Obj
  itemNum : ℤ
  parentItem : ℤ
  weight : ℤ

/-- The world, the number of the next item and what was saved. -/
structure Storing where
  world : World
  itemNum : ℤ
  saves : List Save

/-! ## Storing with the saves -/

section Functions

variable (real : Bool) (fuel : ℕ)

/-- The number of the next item and the number for the contents. -/
def saveItem (parentItem : ℤ) (obj : Obj) (s : Storing) : Locking Mutex (Storing × ℤ) := do
  let w := s.world
  if (w.timer obj < 0 ∧ w.timer obj ≠ objNoTimer) ∨ w.costPerDay obj < 0 then
    return (s, parentItem)
  if w.itemNumber obj = -1 then
    return (s, parentItem)
  let (w, weight) ← containedWeight real fuel obj w
  let w := { w with weight := Function.update w.weight obj (w.weight obj - weight) }
  let save : Save := ⟨obj, s.itemNum, parentItem, w.weight obj⟩
  let w := { w with weight := Function.update w.weight obj (w.weight obj + weight) }
  pure (⟨w, s.itemNum + 1, s.saves ++ [save]⟩, s.itemNum)

def saveEach (store : Obj → Storing → Locking Mutex Storing) (owner : Obj) (s : Storing) :
    Locking Mutex Storing := do
  let contain ← linkedListLock real (.contain owner) owner s.world.contain
  let s ← eachItem (fun s ↦ s.world.contain.next) store fuel (contain.head owner)
    { s with world := { s.world with contain } }
  let contain ← linkedListUnlock real (.contain owner) owner s.world.contain
  pure { s with world := { s.world with contain } }

/-- `objectStore` with the number of the parent item. -/
def objectStoreSaving (delete : Bool) : ℕ → Bool → ℤ → Obj → Storing → Locking Mutex Storing
  | 0, _, _, _, _ => unfinished
  | fuel + 1, locked, parentItem, obj, s => do
      let (s, newParent) ← saveItem real fuel parentItem obj s
      let (contain, count) ← linkedListCount real (.contain obj) obj s.world.contain false
      let s : Storing := { s with world := { s.world with contain } }
      let s ← (if count ≠ 0 then
          saveEach real fuel (fun item ↦ objectStoreSaving delete fuel true newParent item) obj s
        else pure s)
      if delete then
        let w ← storeDelete real fuel obj locked s.world
        pure { s with world := w }
      else pure s

end Functions

/-- The state without what was saved. -/
def Storing.forget (s : Storing) : World × ℤ :=
  (s.world, s.itemNum)

variable {real : Bool} {fuel : ℕ} {held : Finset Mutex} {w : World} {obj : Obj} {locked : Bool}

/-- The lists of the objects of a forest are the ones that it shows. -/
def Shows (w : World) : Forest → Prop :=
  Forest.Each fun obj xs ↦
    Linked w.contain.next (w.contain.head obj) xs ∧ w.contain.items obj = xs.length

/-- The object is saved when it is stored. -/
def Storable (w : World) (obj : Obj) : Prop :=
  w.itemNumber obj ≠ -1 ∧ (0 ≤ w.timer obj ∨ w.timer obj = objNoTimer) ∧ 0 ≤ w.costPerDay obj

instance decidableStorable (w : World) : DecidablePred (Storable w) := fun _ ↦
  inferInstanceAs (Decidable (_ ∧ _))

/-- What is saved of an object apart from its contents. -/
def saveOf (w : World) (parentItem itemNum : ℤ) (obj : Obj) (contents : List Obj) : List Save :=
  if Storable w obj then [⟨obj, itemNum, parentItem, w.weight obj - (contents.map w.weight).sum⟩]
  else []

/-- The number that the contents of an object are told. -/
def parentFor (w : World) (parentItem itemNum : ℤ) (obj : Obj) : ℤ :=
  if Storable w obj then itemNum else parentItem

/-- What is saved of a forest, with the number of the parent and the next number. -/
def Forest.saves (w : World) (parentItem itemNum : ℤ) : Forest → List Save
  | .nil => []
  | .cons obj contents rest =>
      let own := saveOf w parentItem itemNum obj contents.roots
      let inner := own ++ contents.saves w (parentFor w parentItem itemNum obj)
        (itemNum + own.length)
      inner ++ rest.saves w parentItem (itemNum + inner.length)

/-- The world with other flags of the lists of objects. -/
def withLocked (flags : Obj → Bool) (w : World) : World :=
  { w with contain := { w.contain with locked := flags } }

/-- The flags once the lists of some objects were locked and unlocked. -/
def unlocked (objs : List Obj) (flags : Obj → Bool) : Obj → Bool :=
  fun o ↦ if o ∈ objs then false else flags o

/-! ## One object -/

variable {flags : Obj → Bool} {parentItem itemNum : ℤ} {saves : List Save}

/-- The state after a forest was stored. -/
def stored (w : World) (f : Forest) (parentItem itemNum : ℤ) (flags : Obj → Bool)
    (saves : List Save) : Storing :=
  ⟨withLocked (unlocked f.objects flags) w, itemNum + (f.saves w parentItem itemNum).length,
    saves ++ f.saves w parentItem itemNum⟩

/-- The loop over the list of a forest saves the forest. -/
def LoopSaves (real : Bool) (w : World) (f : Forest) : Prop :=
  ∀ (held : Finset Mutex) (flags : Obj → Bool) (parentItem itemNum : ℤ) (saves : List Save)
    (p : Option Obj), Linked w.contain.next p f.roots →
    (∀ o ∈ f.objects, Free real (.contain o) held) →
    ∃ n, ∀ fuel ≥ n, ∀ turns ≥ f.roots.length,
      eachItem (fun s ↦ s.world.contain.next)
        (fun item ↦ objectStoreSaving real false fuel true parentItem item) turns p
        ⟨withLocked flags w, itemNum, saves⟩ held =
          .ok (stored w f parentItem itemNum flags saves, held)

@[simp]
theorem unlocked_nil (flags : Obj → Bool) : unlocked [] flags = flags := by
  funext o
  simp [unlocked]

theorem unlocked_self (contents : List Obj) (hobj : obj ∉ contents) (flags : Obj → Bool)
    (flag : Bool) :
    Function.update (unlocked contents (Function.update flags obj flag)) obj false =
      unlocked (obj :: contents) flags := by
  funext o
  by_cases ho : o = obj
  · subst ho
    simp [unlocked]
  · simp [unlocked, ho]

/-- The contents of an object are stored while their list is locked. -/
theorem LoopSaves.saveEach {contents : Forest} (hloop : LoopSaves real w contents)
    (hlinked : Linked w.contain.next (w.contain.head obj) contents.roots)
    (hobj : obj ∉ contents.objects)
    (hfree : ∀ o ∈ obj :: contents.objects, Free real (.contain o) held) (flags : Obj → Bool)
    (parentItem itemNum : ℤ) (saves : List Save) :
    ∃ n, ∀ fuel ≥ n, saveEach real fuel
      (fun item ↦ objectStoreSaving real false fuel true parentItem item) obj
      ⟨withLocked flags w, itemNum, saves⟩ held =
        .ok (⟨withLocked (unlocked (obj :: contents.objects) flags) w,
          itemNum + (contents.saves w parentItem itemNum).length,
          saves ++ contents.saves w parentItem itemNum⟩, held) := by
  have hself := hfree obj List.mem_cons_self
  have hbelow : ∀ o ∈ contents.objects,
      Free real (.contain o) (holding real (.contain obj) held) := by
    intro o ho
    refine (hfree o (List.mem_cons_of_mem _ ho)).holding ?_
    rintro heq
    cases heq
    exact hobj ho
  obtain ⟨n, hrun⟩ := hloop (holding real (.contain obj) held) (Function.update flags obj true)
    parentItem itemNum saves (w.contain.head obj) hlinked hbelow
  refine ⟨n + contents.roots.length, fun fuel hfuel ↦ ?_⟩
  unfold Placement.saveEach
  rw [bind_of_ok (linkedListLock_eq hself _ _)]
  refine (bind_of_ok (hrun fuel (by omega) fuel (by omega)) _).trans ?_
  refine (bind_of_ok (linkedListUnlock_eq hself _ _) _).trans ?_
  rw [← unlocked_self _ hobj flags true]
  rfl

/-- The number that an object in `above` is told: that of the nearest object that is saved, or the
number that came from outside. -/
def Told (w : World) (saves : List Save) (parentItem : ℤ) (above : List Obj) (told : ℤ) : Prop :=
  match above.find? fun o ↦ Storable w o with
  | none => told = parentItem
  | some o => ∃ x ∈ saves, x.obj = o ∧ told = x.itemNum

/-- The numbers from one on. -/
def numbersFrom (itemNum : ℤ) (count : ℕ) : List ℤ :=
  (List.range count).map fun i : ℕ ↦ itemNum + i

/-- The saves of a forest: each object that is saved has its number in pre-order, the number of the
nearest object around it that is saved, and its weight without that of its contents. -/
structure Numbered (w : World) (f : Forest) (parentItem itemNum : ℤ) (saves : List Save) :
    Prop where
  objs : saves.map (·.obj) = f.objects.filter fun o ↦ Storable w o
  itemNums : saves.map (·.itemNum) = numbersFrom itemNum saves.length
  parents : ∀ x ∈ saves, ∀ above, (x.obj, above) ∈ f.entries [] →
    Told w saves parentItem above x.parentItem
  weights : ∀ x ∈ saves, ∀ contents, Linked w.contain.next (w.contain.head x.obj) contents →
    x.weight = w.weight x.obj - (contents.map w.weight).sum

end HavokMud.Placement
