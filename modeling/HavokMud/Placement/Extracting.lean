import HavokMud.Placement.Forests
import HavokMud.Placement.Places

/-!
# Extracting an object

`objectExtract` takes an object off the list of its place, does the same for all that is in it, and
frees it.  While the list of an object is gone through, each call takes the current object off that
list, so the next one is read before.  What is freed is kept here in the order of the calls of
`objectFree`.
-/

namespace HavokMud.Placement

open Interaction Locking LinkedList

/-! ## Extraction with what is freed -/

section Functions

variable (real : Bool)

/-- `objectExtractLocked` once the object has left its place. -/
def extractContents (extract : Obj → World × List Obj → Locking Mutex (World × List Obj))
    (fuel : ℕ) (obj : Obj) (locked : Bool) (s : World × List Obj) :
    Locking Mutex (World × List Obj) := do
  let contain ← linkedListLock real (.contain obj) obj s.1.contain
  let s ← eachItem (fun s ↦ s.1.contain.next) extract fuel (contain.head obj)
    ({ s.1 with contain }, s.2)
  let contain ← linkedListUnlock real (.contain obj) obj s.1.contain
  let w ← discard real obj locked { s.1 with contain }
  pure (w, s.2 ++ [obj])

/-- `objectExtractLocked` with what is freed. -/
def objectExtractFreeing : ℕ → Obj → Bool → World × List Obj → Locking Mutex (World × List Obj)
  | 0, _, _, _ => unfinished
  | fuel + 1, obj, locked, s => do
      let (w, locked, goesOn) ← detach real fuel obj locked s.1
      if goesOn then
        extractContents real (fun item ↦ objectExtractFreeing fuel item locked) fuel obj locked
          (w, s.2)
      else pure (w, s.2)

end Functions

variable {real : Bool} {fuel : ℕ} {held : Finset Mutex} {w w' w₁ w₂ : World} {l : Layout}
  {obj : Obj} {locked : Bool}

/-- The lists without some items. -/
def Without {τ : Type} (lists : τ → List Obj) (objs : List Obj) (a : τ) : List Obj :=
  (lists a).filter (· ∉ objs)

section Lists

variable {τ : Type} [DecidableEq τ] {lists : τ → List Obj} {objs objs' : List Obj}

omit [DecidableEq τ] in
@[simp]
theorem mem_without {a : τ} {o : Obj} : o ∈ Without lists objs a ↔ o ∈ lists a ∧ o ∉ objs := by
  simp [Without]

omit [DecidableEq τ] in
theorem without_without :
    Without (Without lists objs) objs' = Without lists (objs ++ objs') := by
  funext a
  simp [Without, List.filter_filter, Bool.and_comm]

omit [DecidableEq τ] in
/-- What is on no list may be left out. -/
theorem without_of_notMem {a : τ} (h : ∀ o ∈ objs, o ∉ lists a) :
    Without lists objs a = lists a := by
  rw [Without, List.filter_eq_self]
  intro o ho
  simpa using fun hmem ↦ h o hmem ho

/-- An item is taken off its list. -/
theorem holds_remove {h : Heap Obj τ} (hh : Holds h lists) {a : τ} (hobj : obj ∈ lists a) :
    Holds (h.remove a obj) (Without lists [obj]) := by
  have heq : Without lists [obj] = Function.update lists a ((lists a).erase obj) := by
    funext b
    by_cases hb : b = a
    · subst hb
      rw [Function.update_self, (hh.nodup b).erase_eq_filter, Without]
      congr 1
      funext o
      simp [bne, beq_eq_decide]
    · rw [Function.update_of_ne hb]
      refine without_of_notMem fun o ho hmem ↦ hb ?_
      rw [List.mem_singleton.mp ho] at hmem
      exact hh.eq_of_mem hmem hobj
  rw [heq]
  exact hh.remove hobj

end Lists

/-! ## Filed objects -/

/-- Objects on the list of an object are in it and nowhere else, and objects on the list of an index
are of that kind. -/
structure Filed (w : World) (lists : Obj → List Obj) (kinds : ℤ → List Obj) : Prop where
  contain : Holds w.contain lists
  global : Holds w.global kinds
  item : ∀ o p, o ∈ lists p → w.inObj o = some p ∧ w.inRoom o = -1 ∧ w.carriedBy o = none ∧
    w.equippedBy o = none
  kind : ∀ o v, o ∈ kinds v → w.index o = v ∧ 0 ≤ w.itemNumber o

/-- The objects that are counted, and those of a kind. -/
def counted (w : World) (objs : List Obj) : ℕ :=
  objs.countP fun o ↦ 0 ≤ w.itemNumber o

def countedOf (w : World) (vnum : ℤ) (objs : List Obj) : ℕ :=
  objs.countP fun o ↦ 0 ≤ w.itemNumber o ∧ w.index o = vnum

/-- Some objects are off all lists and freed, and nothing else has changed. -/
structure Extracted (w : World) (lists : Obj → List Obj) (kinds : ℤ → List Obj)
    (objs : List Obj) (w' : World) : Prop where
  contain : Holds w'.contain (Without lists objs)
  global : Holds w'.global (Without kinds objs)
  number : ∀ vnum, w'.number vnum = w.number vnum - countedOf w vnum objs
  objCount : w'.objCount = w.objCount - counted w objs
  live : ∀ o, o ∈ w'.live ↔ o ∈ w.live ∧ o ∉ objs
  frame : w' = { w with
    contain := w'.contain
    global := w'.global
    number := w'.number
    objCount := w'.objCount
    live := w'.live }

variable {lists : Obj → List Obj} {kinds : ℤ → List Obj} {objs objs' : List Obj}

theorem Extracted.trans (h : Extracted w lists kinds objs w₁)
    (h' : Extracted w₁ (Without lists objs) (Without kinds objs) objs' w₂) :
    Extracted w lists kinds (objs ++ objs') w₂ := by
  have hitemNumber : w₁.itemNumber = w.itemNumber := by rw [h.frame]
  have hindex : w₁.index = w.index := by rw [h.frame]
  refine ⟨?_, ?_, fun vnum ↦ ?_, ?_, fun o ↦ ?_, ?_⟩
  · rw [← without_without]
    exact h'.contain
  · rw [← without_without]
    exact h'.global
  · have hcount : countedOf w₁ vnum objs' = countedOf w vnum objs' := by
      simp only [countedOf, hitemNumber, hindex]
    rw [h'.number, h.number, hcount, countedOf, countedOf, countedOf, List.countP_append]
    omega
  · have hcount : counted w₁ objs' = counted w objs' := by simp only [counted, hitemNumber]
    rw [h'.objCount, h.objCount, hcount, counted, counted, counted, List.countP_append]
    omega
  · rw [h'.live, h.live, List.mem_append, not_or, and_assoc]
  · rw [h'.frame, h.frame]

theorem Filed.extracted (hf : Filed w lists kinds) (h : Extracted w lists kinds objs w') :
    Filed w' (Without lists objs) (Without kinds objs) := by
  refine ⟨h.contain, h.global, fun o p ho ↦ ?_, fun o v ho ↦ ?_⟩
  · rw [h.frame]
    exact hf.item o p (mem_without.mp ho).1
  · rw [h.frame]
    exact hf.kind o v (mem_without.mp ho).1

/-! ## One object -/

theorem linkedListRemove_of_ne {τ μ : Type} [DecidableEq τ] [DecidableEq μ] {m : μ} {a : τ}
    {h : Heap Obj τ} {held : Finset μ} (hlist : h.list obj ≠ some a) :
    linkedListRemove real m a h obj locked held = .ok (h, held) := by
  unfold linkedListRemove
  rw [if_pos hlist]
  rfl

theorem lockUnless_noop (locked : Bool) (m : Mutex) (a : Obj) (h : Heap Obj Obj) :
    ∃ flag, ∀ held, lockUnless false m a h locked held = .ok (h.setLocked a flag, held) := by
  cases locked with
  | false => exact ⟨true, fun held ↦ lockUnless_false (free_false m held) a h⟩
  | true =>
      refine ⟨h.locked a, fun held ↦ ?_⟩
      rw [Heap.setLocked, Function.update_eq_self]
      rfl

theorem unlockUnless_noop (locked : Bool) (m : Mutex) (a : Obj) (h : Heap Obj Obj) :
    ∃ flag, ∀ held, unlockUnless false m a h locked held = .ok (h.setLocked a flag, held) := by
  cases locked with
  | false => exact ⟨false, fun held ↦ unlockUnless_false (free_false m held) a h⟩
  | true =>
      refine ⟨h.locked a, fun held ↦ ?_⟩
      rw [Heap.setLocked, Function.update_eq_self]
      rfl

/-- An object leaves the list of the one that it is in. -/
theorem Filed.detach (hf : Filed w lists kinds) {p : Obj} (hobj : obj ∈ lists p) (locked : Bool) :
    ∃ contain locked', (∀ fuel held, Placement.detach false fuel obj locked w held =
        .ok (({ w with contain }, locked', true), held)) ∧
      Filed { w with contain } (Without lists [obj]) kinds := by
  obtain ⟨hin, hroom, hcarried, hequipped⟩ := hf.item obj p hobj
  have hlist : w.contain.list obj = some p := (hf.contain.list obj p).mpr hobj
  obtain ⟨flag, hlock⟩ := lockUnless_noop (linkedListIsLocked p w.contain) (.contain p) p w.contain
  obtain ⟨flag', hunlock⟩ := unlockUnless_noop (linkedListIsLocked p w.contain) (.contain p) p
    ((w.contain.remove p obj).setLocked p flag)
  refine ⟨((w.contain.remove p obj).setLocked p flag).setLocked p flag',
    linkedListIsLocked p w.contain, fun fuel held ↦ ?_, ?_⟩
  · have hremove : linkedListRemove false (.contain p) p (w.contain.setLocked p flag) obj true
        held = .ok ((w.contain.remove p obj).setLocked p flag, held) := by
      rw [linkedListRemove_eq (fun _ ↦ free_false _ _) (by exact hlist), Heap.remove_setLocked]
      rfl
    unfold Placement.detach
    simp only [hroom, ne_eq, not_true, if_false, hcarried, Option.isSome_none, Bool.false_eq_true,
      hequipped, hin]
    rw [bind_of_ok (hlock held), bind_of_ok hremove, bind_of_ok (hunlock held)]
    rfl
  · refine ⟨((holds_remove hf.contain hobj).setLocked p flag).setLocked p flag', hf.global,
      fun o q ho ↦ hf.item o q (mem_without.mp ho).1, hf.kind⟩

/-- The end of an extraction: an object on no list of objects leaves the list of its kind. -/
theorem Filed.discard (hf : Filed w lists kinds) (hobj : ∀ p, obj ∉ lists p) (locked : Bool) :
    ∃ w', (∀ held, Placement.discard false obj locked w held = .ok (w', held)) ∧
      Extracted w lists kinds [obj] w' := by
  have hcontain : Holds w.contain (Without lists [obj]) := by
    have hlists : Without lists [obj] = lists :=
      funext fun p ↦ without_of_notMem fun o ho hmem ↦ hobj p (List.mem_singleton.mp ho ▸ hmem)
    rw [hlists]
    exact hf.contain
  have hlive : ∀ o, o ∈ w.live.erase obj ↔ o ∈ w.live ∧ o ∉ [obj] := by
    intro o
    rw [Finset.mem_erase, List.mem_singleton, and_comm]
  by_cases hnumber : 0 ≤ w.itemNumber obj
  · have hcount : counted w [obj] = 1 := by simp [counted, hnumber]
    have hcountOf : ∀ vnum, countedOf w vnum [obj] = if w.index obj = vnum then 1 else 0 := by
      intro vnum
      by_cases hv : w.index obj = vnum <;> simp [countedOf, hnumber, hv]
    obtain ⟨global, hremove, hglobal⟩ : ∃ global, (∀ held : Finset Mutex,
        linkedListRemove false (.index (w.index obj)) (w.index obj) w.global obj locked held =
          .ok (global, held)) ∧ Holds global (Without kinds [obj]) := by
      by_cases hmem : obj ∈ kinds (w.index obj)
      · exact ⟨_, fun held ↦ linkedListRemove_eq (fun _ ↦ free_false _ held)
          ((hf.global.list obj _).mpr hmem), (holds_remove hf.global hmem).settle _ locked⟩
      · have hkinds : Without kinds [obj] = kinds := by
          refine funext fun v ↦ without_of_notMem fun o ho hmem' ↦ hmem ?_
          rw [List.mem_singleton.mp ho] at hmem'
          rwa [(hf.kind obj v hmem').1]
        refine ⟨w.global, fun held ↦ linkedListRemove_of_ne fun hlist ↦ hmem ?_, ?_⟩
        · exact (hf.global.list obj _).mp hlist
        · rw [hkinds]
          exact hf.global
    refine ⟨{ w with
      number := Function.update w.number (w.index obj) (w.number (w.index obj) - 1)
      global
      objCount := w.objCount - 1
      live := w.live.erase obj }, fun held ↦ ?_, ?_⟩
    · unfold Placement.discard
      rw [if_pos hnumber]
      exact bind_of_ok (hremove held) _
    · refine ⟨hcontain, hglobal, fun vnum ↦ ?_, ?_, hlive, rfl⟩
      · rw [hcountOf]
        by_cases hv : vnum = w.index obj
        · subst hv
          simp
        · simp [hv, Ne.symm hv]
      · rw [hcount]
        rfl
  · have hkinds : Without kinds [obj] = kinds := by
      refine funext fun v ↦ without_of_notMem fun o ho hmem ↦ hnumber ?_
      rw [List.mem_singleton.mp ho] at hmem
      exact (hf.kind obj v hmem).2
    refine ⟨{ w with live := w.live.erase obj }, fun held ↦ ?_, ?_⟩
    · unfold Placement.discard
      rw [if_neg hnumber]
      rfl
    · refine ⟨hcontain, ?_, fun vnum ↦ ?_, ?_, hlive, rfl⟩
      · rw [hkinds]
        exact hf.global
      · simp [countedOf, hnumber]
      · simp [counted, hnumber]

/-! ## Whole trees -/

theorem Filed.setLocked (hf : Filed w lists kinds) (a : Obj) (flag : Bool) :
    Filed { w with contain := w.contain.setLocked a flag } lists kinds :=
  ⟨hf.contain.setLocked a flag, hf.global, hf.item, hf.kind⟩

/-- The flags of lists do not matter. -/
theorem Extracted.setLocked {a : Obj} {flag : Bool}
    (h : Extracted { w with contain := w.contain.setLocked a flag } lists kinds objs w')
    (flag' : Bool) :
    Extracted w lists kinds objs { w' with contain := w'.contain.setLocked a flag' } := by
  refine ⟨h.contain.setLocked a flag', h.global, h.number, h.objCount, h.live, ?_⟩
  conv_lhs => rw [h.frame]

/-- The loop over the list of an object extracts all that is in it. -/
def LoopExtracts (f : Forest) : Prop :=
  ∀ (w : World) (lists : Obj → List Obj) (kinds : ℤ → List Obj) (owner : Obj),
    Filed w lists kinds → lists owner = f.roots → f.Each (fun o xs ↦ lists o = xs) →
    owner ∉ f.objects → ∀ (locked : Bool) (freed : List Obj),
    ∃ w', Extracted w lists kinds f.postorder w' ∧ ∃ n, ∀ fuel ≥ n, ∀ turns ≥ f.roots.length,
      ∀ held, eachItem (fun s ↦ s.1.contain.next)
        (fun item ↦ objectExtractFreeing false fuel item locked) turns f.roots.head? (w, freed)
        held = .ok ((w', freed ++ f.postorder), held)

/-- An object that is on no list is extracted with all that is in it. -/
theorem LoopExtracts.contents {contents : Forest} (hloop : LoopExtracts contents)
    (hf : Filed w lists kinds) (hobj : ∀ p, obj ∉ lists p) (hroots : lists obj = contents.roots)
    (heach : contents.Each fun o xs ↦ lists o = xs) (hout : obj ∉ contents.objects)
    (locked : Bool) (freed : List Obj) :
    ∃ w', Extracted w lists kinds (contents.postorder ++ [obj]) w' ∧ ∃ n, ∀ fuel ≥ n, ∀ held,
      extractContents false (fun item ↦ objectExtractFreeing false fuel item locked) fuel obj
        locked (w, freed) held =
          .ok ((w', freed ++ (contents.postorder ++ [obj])), held) := by
  obtain ⟨w₁, hw₁, n, hrun⟩ := hloop { w with contain := w.contain.setLocked obj true } lists kinds
    obj (hf.setLocked obj true) hroots heach hout locked freed
  have hw₂ := hw₁.setLocked false
  obtain ⟨w₃, hdiscard, hw₃⟩ := (hf.extracted hw₂).discard
    (fun p hmem ↦ hobj p (mem_without.mp hmem).1) locked
  refine ⟨w₃, hw₂.trans hw₃, n + contents.roots.length, fun fuel hfuel held ↦ ?_⟩
  have hhead : (w.contain.setLocked obj true).head obj = contents.roots.head? := by
    rw [← hroots]
    exact (hf.contain.forward obj).head_eq
  unfold extractContents
  rw [bind_of_ok (linkedListLock_eq (free_false _ _) _ _), hhead]
  refine (bind_of_ok (hrun fuel (by omega) fuel (by omega) _) _).trans ?_
  refine (bind_of_ok (linkedListUnlock_eq (free_false _ _) _ _) _).trans ?_
  refine (bind_of_ok (hdiscard held) _).trans ?_
  rw [List.append_assoc]
  rfl

/-- The lists of the indexes, and what characters wear, agree with the objects. -/
structure Kept (w : World) (kinds : ℤ → List Obj) : Prop where
  global : Holds w.global kinds
  kind : ∀ o v, o ∈ kinds v → w.index o = v ∧ 0 ≤ w.itemNumber o
  worn : ∀ ch slot o, w.equipment ch slot = some o ↔
    o ∈ w.live ∧ w.equippedBy o = some ch ∧ w.eqPos o = slot
  slot : ∀ o ∈ w.live, w.equippedBy o ≠ none → -1 < w.eqPos o

/-- An object is off the list of its place, and everything else is where it was. -/
structure Detached (w : World) (l : Layout) (kinds : ℤ → List Obj) (obj : Obj) (w₁ : World) :
    Prop where
  filed : Filed w₁ (Without l.contain [obj]) kinds
  content : Holds w₁.content (Without l.content [obj])
  chain : ∀ ch, Linked w₁.nextContent (w₁.carrying ch) (Without l.chain [obj] ch)
  equipment : ∀ ch slot, w₁.equipment ch slot = (w.equipment ch slot).filter (· ≠ obj)
  itemNumber : w₁.itemNumber = w.itemNumber
  index : w₁.index = w.index
  number : w₁.number = w.number
  objCount : w₁.objCount = w.objCount
  live : w₁.live = w.live

theorem Sound.filed (hs : Sound w l) (hk : Kept w kinds) : Filed w l.contain kinds := by
  refine ⟨hs.contain, hk.global, fun o p ho ↦ ?_, hk.kind⟩
  obtain ⟨hlive, hin⟩ := (hs.mem_contain o p).mp ho
  have hne : w.inObj o ≠ none := by simp [hin]
  refine ⟨hin, ?_, ?_, ?_⟩
  · by_contra hroom
    exact hne (hs.room_only o hlive hroom).2.2
  · by_contra hcarried
    exact hne (hs.carried_only o hlive hcarried).2
  · by_contra hequipped
    exact hne (hs.equipped_only o hlive hequipped)

theorem Sound.without_contain (hs : Sound w l) (hin : w.inObj obj = none) :
    Without l.contain [obj] = l.contain := by
  refine funext fun p ↦ without_of_notMem fun o ho hmem ↦ ?_
  rw [List.mem_singleton.mp ho, hs.mem_contain, hin] at hmem
  exact nomatch hmem.2

theorem Sound.without_content (hs : Sound w l) (hroom : w.inRoom obj = -1) :
    Without l.content [obj] = l.content := by
  refine funext fun r ↦ without_of_notMem fun o ho hmem ↦ ?_
  rw [List.mem_singleton.mp ho, hs.mem_content, hroom] at hmem
  exact hmem.2.2 hmem.2.1.symm

theorem Sound.without_chain (hs : Sound w l) (hcarried : w.carriedBy obj = none) :
    Without l.chain [obj] = l.chain := by
  refine funext fun ch ↦ without_of_notMem fun o ho hmem ↦ ?_
  rw [List.mem_singleton.mp ho, hs.mem_chain, hcarried] at hmem
  exact nomatch hmem.2

/-- What is worn is not an object that nobody wears. -/
theorem Kept.filter_equipment (hk : Kept w kinds) (hequipped : w.equippedBy obj = none)
    (ch : Character) (slot : ℤ) :
    w.equipment ch slot = (w.equipment ch slot).filter (· ≠ obj) := by
  cases hworn : w.equipment ch slot with
  | none => rfl
  | some o =>
      have hne : o ≠ obj := by
        rintro rfl
        rw [((hk.worn ch slot o).mp hworn).2.1] at hequipped
        cases hequipped
      exact (Option.filter_some_pos (by simpa using hne)).symm

/-- The world after a slot of a character was emptied. -/
def withoutWorn (ch : Character) (slot : ℤ) (w : World) : World :=
  { w with
    equipment := Function.update w.equipment ch (Function.update (w.equipment ch) slot none) }

/-- An object that is worn leaves its slot. -/
theorem Kept.withoutWorn (hk : Kept w kinds) (hobj : obj ∈ w.live) {ch : Character}
    (hequipped : w.equippedBy obj = some ch) (ch' : Character) (slot : ℤ) :
    (Placement.withoutWorn ch (w.eqPos obj) w).equipment ch' slot =
      (w.equipment ch' slot).filter (· ≠ obj) := by
  change Function.update w.equipment ch (Function.update (w.equipment ch) (w.eqPos obj) none) ch'
    slot = _
  have hhere : w.equipment ch (w.eqPos obj) = some obj :=
    (hk.worn ch (w.eqPos obj) obj).mpr ⟨hobj, hequipped, rfl⟩
  have helse : ∀ ch' slot, ch' ≠ ch ∨ slot ≠ w.eqPos obj →
      w.equipment ch' slot = (w.equipment ch' slot).filter (· ≠ obj) := by
    intro ch' slot hother
    cases hworn : w.equipment ch' slot with
    | none => rfl
    | some o =>
        refine (Option.filter_some_pos ?_).symm
        have hne : o ≠ obj := by
          rintro rfl
          obtain ⟨-, hby, hslot⟩ := (hk.worn ch' slot o).mp hworn
          rcases hother with h | h
          · exact h (Option.some.inj (hby.symm.trans hequipped))
          · exact h hslot.symm
        simpa using hne
  by_cases hch : ch' = ch
  · subst hch
    rw [Function.update_self]
    by_cases hslot : slot = w.eqPos obj
    · subst hslot
      rw [Function.update_self, hhere]
      exact (Option.filter_some_neg (by simp)).symm
    · rw [Function.update_of_ne hslot]
      exact helse ch' slot (.inr hslot)
  · rw [Function.update_of_ne hch]
    exact helse ch' slot (.inl hch)

theorem without_erase {τ : Type} [DecidableEq τ] {lists : τ → List Obj} (a : τ)
    (hnodup : (lists a).Nodup) :
    Without (Function.update lists a ((lists a).erase obj)) [obj] = Without lists [obj] := by
  funext b
  by_cases hb : b = a
  · subst hb
    rw [Without, Function.update_self, hnodup.erase_eq_filter, List.filter_filter, Without]
    refine List.filter_congr fun o _ ↦ ?_
    by_cases ho : o = obj <;> simp [ho]
  · rw [Without, Function.update_of_ne hb, Without]

/-- An object that has left its place for no other. -/
theorem Detached.of_nowhere {l₁ : Layout} (hs : Sound w₁ l₁) (hk : Kept w₁ kinds)
    (hobj : Nowhere w₁ obj) (hcontain : l₁.contain = l.contain)
    (hcontent : Without l₁.content [obj] = Without l.content [obj])
    (hchain : Without l₁.chain [obj] = Without l.chain [obj])
    (hframe : w₁.itemNumber = w.itemNumber ∧ w₁.index = w.index ∧ w₁.number = w.number ∧
      w₁.objCount = w.objCount ∧ w₁.live = w.live ∧ w₁.equipment = w.equipment) :
    Detached w l kinds obj w₁ := by
  obtain ⟨hitemNumber, hindex, hnumber, hobjCount, hlive, hequipment⟩ := hframe
  refine ⟨?_, ?_, fun ch ↦ ?_, fun ch slot ↦ ?_, hitemNumber, hindex, hnumber, hobjCount, hlive⟩
  · rw [← hcontain, hs.without_contain hobj.inside]
    exact hs.filed hk
  · rw [← hcontent, hs.without_content hobj.room]
    exact hs.content
  · rw [← hchain, hs.without_chain hobj.carried]
    exact hs.chain ch
  · rw [← hequipment]
    exact hk.filter_equipment hobj.equipped ch slot

/-- A live object leaves its place, if that is not a room numbered below `NOWHERE`. -/
theorem Sound.detach (hs : Sound w l) (hk : Kept w kinds) (hobj : obj ∈ w.live)
    (hroom : -1 ≤ w.inRoom obj) (locked : Bool) :
    ∃ w₁ locked', Detached w l kinds obj w₁ ∧ ∃ n, ∀ fuel ≥ n, ∀ held,
      Placement.detach false fuel obj locked w held = .ok ((w₁, locked', true), held) := by
  by_cases hin : w.inRoom obj ≠ -1
  · -- in a room
    have hnot : ¬ w.inRoom obj ≤ -1 := by omega
    refine ⟨outOfRoom obj false w, locked, ?_, 0, fun fuel _ held ↦ ?_⟩
    · exact .of_nowhere (sound_outOfRoom hs hobj hin false)
        ⟨hk.global, hk.kind, hk.worn, hk.slot⟩ (nowhere_outOfRoom hs hobj hin false) rfl
        (without_erase _ (hs.content.nodup _)) rfl ⟨rfl, rfl, rfl, rfl, rfl, rfl⟩
    · have hrun : objectTakeFromRoom false obj false w held =
          .ok (if w.inRoom obj ≤ -1 then w else outOfRoom obj false w, held) :=
        objectTakeFromRoom_eq hs hobj fun _ ↦ free_false _ held
      rw [if_neg hnot] at hrun
      unfold Placement.detach
      rw [if_pos hin, bind_of_ok hrun]
      rfl
  rw [not_not] at hin
  cases hby : w.carriedBy obj with
  | some ch =>
      obtain ⟨carrying, next, hrun, hs₁, hnowhere⟩ := objectTakeFromChar_eq hs hobj hby
      obtain ⟨hequipped, -⟩ := hs.carried_only obj hobj (by simp [hby])
      have hequippedBy : Function.update w.equippedBy obj none = w.equippedBy := by
        rw [← hequipped, Function.update_eq_self]
      refine ⟨leaveChar obj ch { w with carrying, nextContent := next }, locked, ?_,
        (l.chain ch).length, fun fuel hfuel held ↦ ?_⟩
      · refine .of_nowhere hs₁ ⟨hk.global, hk.kind, ?_, ?_⟩ hnowhere rfl rfl
          (without_erase _ (hs.nodup_chain ch)) ⟨rfl, rfl, rfl, rfl, rfl, rfl⟩
        · simp only [leaveChar, hequippedBy]
          exact hk.worn
        · simp only [leaveChar, hequippedBy]
          exact hk.slot
      · unfold Placement.detach
        simp only [hin, ne_eq, not_true, if_false, hby, Option.isSome_some, if_true]
        rw [bind_of_ok (hrun held fuel hfuel)]
        rfl
  | none =>
      cases hequipped : w.equippedBy obj with
      | some ch =>
          have hslot := hk.slot obj hobj (by simp [hequipped])
          have hinside := hs.equipped_only obj hobj (by simp [hequipped])
          refine ⟨withoutWorn ch (w.eqPos obj) w, locked, ⟨?_, ?_, fun ch' ↦ ?_,
            hk.withoutWorn hobj hequipped, rfl, rfl, rfl, rfl, rfl⟩, 0, fun fuel _ held ↦ ?_⟩
          · rw [hs.without_contain hinside]
            exact ⟨hs.contain, hk.global, (hs.filed hk).item, hk.kind⟩
          · rw [hs.without_content hin]
            exact hs.content
          · rw [hs.without_chain hby]
            exact hs.chain ch'
          · unfold Placement.detach
            simp only [hin, ne_eq, not_true, if_false, hby, Option.isSome_none,
              Bool.false_eq_true, hequipped, if_pos hslot]
            rfl
      | none =>
          cases hinside : w.inObj obj with
          | some p =>
              have hmem := (hs.mem_contain obj p).mpr ⟨hobj, hinside⟩
              obtain ⟨contain, locked', hrun, hf⟩ := (hs.filed hk).detach hmem locked
              refine ⟨{ w with contain }, locked', ⟨hf, ?_, fun ch ↦ ?_, fun ch slot ↦ ?_, rfl, rfl,
                rfl, rfl, rfl⟩, 0, fun fuel _ held ↦ hrun fuel held⟩
              · rw [hs.without_content hin]
                exact hs.content
              · rw [hs.without_chain hby]
                exact hs.chain ch
              · exact hk.filter_equipment hequipped ch slot
          | none =>
              refine ⟨w, locked, .of_nowhere hs hk ⟨hin, hby, hequipped, hinside⟩ rfl rfl rfl
                ⟨rfl, rfl, rfl, rfl, rfl, rfl⟩, 0, fun fuel _ held ↦ ?_⟩
              unfold Placement.detach
              simp only [hin, ne_eq, not_true, if_false, hby, Option.isSome_none,
                Bool.false_eq_true, hequipped, hinside]
              rfl

/-! ## What an extraction leaves -/

end HavokMud.Placement
