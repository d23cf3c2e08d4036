import HavokMud.LinkedList.Basic

/-!
# The lists of a heap

The lists of a heap are linked both ways, and an item that names a list is on that list, so no item
is on two lists.
-/

namespace HavokMud.LinkedList

open Interaction Locking

variable {ι τ μ : Type} [DecidableEq ι] [DecidableEq τ] [DecidableEq μ]

/-- The lists of a heap as finite lists. -/
structure Holds (h : Heap ι τ) (lists : τ → List ι) : Prop where
  forward : ∀ a, Linked h.next (h.head a) (lists a)
  backward : ∀ a, Linked h.prev (h.tail a) (lists a).reverse
  list : ∀ x a, h.list x = some a ↔ x ∈ lists a
  nodup : ∀ a, (lists a).Nodup
  items : ∀ a, h.items a = (lists a).length

variable {h : Heap ι τ} {lists : τ → List ι} {a b : τ} {x y : ι}

/-! ## The operations on the links -/

namespace Heap

theorem add_atTail (h : Heap ι τ) (a : τ) (x : ι) :
    h.add a x .atTail =
      { h with
        prev := Function.update h.prev x (h.tail a)
        next := fun y ↦ if h.tail a = some y then some x else if y = x then none else h.next y
        list := Function.update h.list x (some a)
        head := Function.update h.head a (some ((h.head a).getD x))
        tail := Function.update h.tail a (some x)
        items := Function.update h.items a (h.items a + 1) } := by
  cases htail : h.tail a with
  | none =>
      simp [add, fixNext, fixPrev, fixEnds, htail]
      funext y
      simp [Function.update_apply]
  | some last =>
      simp [add, fixNext, fixPrev, fixEnds, htail]
      funext y
      simp [Function.update_apply, eq_comm]

omit [DecidableEq τ] in
theorem unlinkPrev_eq (x : ι) (h : Heap ι τ) : h.unlinkPrev x =
    { h with next := fun y ↦ if h.prev x = some y then h.next x else h.next y } := by
  unfold unlinkPrev
  cases hprev : h.prev x with
  | none => simp
  | some p =>
      dsimp only
      congr 1
      funext y
      simp [Function.update_apply, eq_comm]

omit [DecidableEq τ] in
theorem unlinkNext_eq (x : ι) (h : Heap ι τ) : h.unlinkNext x =
    { h with prev := fun y ↦ if h.next x = some y then h.prev x else h.prev y } := by
  unfold unlinkNext
  cases hnext : h.next x with
  | none => simp
  | some p =>
      dsimp only
      congr 1
      funext y
      simp [Function.update_apply, eq_comm]

theorem remove_eq (h : Heap ι τ) (a : τ) (x : ι) (hprev : h.prev x ≠ some x)
    (hnext : h.next x ≠ some x) :
    h.remove a x =
      { h with
        prev := fun y ↦ if h.next x = some y then h.prev x else h.prev y
        next := fun y ↦ if h.prev x = some y then h.next x else h.next y
        list := Function.update h.list x none
        head := Function.update h.head a (if h.head a = some x then h.next x else h.head a)
        tail := Function.update h.tail a (if h.tail a = some x then h.prev x else h.tail a)
        items := Function.update h.items a (h.items a - 1) } := by
  simp only [remove, unlinkEnds, unlinkPrev_eq, unlinkNext_eq, if_neg hprev, if_neg hnext]
  split_ifs <;> simp

end Heap

namespace Holds

omit [DecidableEq ι] [DecidableEq τ] in
theorem eq_of_mem (hh : Holds h lists) (hx : x ∈ lists a) (hx' : x ∈ lists b) : a = b :=
  Option.some.inj (((hh.list x a).mpr hx).symm.trans ((hh.list x b).mpr hx'))

omit [DecidableEq ι] [DecidableEq τ] in
theorem tail_eq_some_iff (hh : Holds h lists) :
    h.tail a = some x ↔ (lists a).getLast? = some x := by
  rw [(hh.backward a).head_eq, List.head?_reverse]

omit [DecidableEq ι] [DecidableEq τ] in
/-- No item is its own neighbour. -/
theorem neighbour_ne (hh : Holds h lists) (hx : x ∈ lists a) :
    h.next x ≠ some x ∧ h.prev x ≠ some x := by
  obtain ⟨before, after, hsplit⟩ := List.append_of_mem hx
  have hforward := hh.forward a
  have hbackward := hh.backward a
  have hnodup := hh.nodup a
  have hreverse : (before ++ x :: after).reverse = after.reverse ++ x :: before.reverse := by simp
  rw [hsplit] at hforward hbackward hnodup
  rw [hreverse] at hbackward
  obtain ⟨-, hnodup, hdisjoint⟩ := List.nodup_append.mp hnodup
  rw [hforward.next_eq, hbackward.next_eq, List.head?_reverse]
  constructor
  · intro heq
    exact (List.nodup_cons.mp hnodup).1 (List.mem_of_mem_head? heq)
  · intro heq
    exact hdisjoint x (List.mem_of_getLast? heq) x List.mem_cons_self rfl

/-- An item on no list is added at the tail. -/
theorem add (hh : Holds h lists) (hx : h.list x = none) (a : τ) :
    Holds (h.add a x .atTail) (Function.update lists a (lists a ++ [x])) := by
  have hnot : ∀ b, x ∉ lists b := by
    intro b hmem
    rw [(hh.list x b).mpr hmem] at hx
    cases hx
  rw [h.add_atTail a x]
  refine ⟨?_, ?_, ?_, ?_, ?_⟩
  · intro b
    dsimp only
    by_cases hb : b = a
    · subst hb
      have hhead : some ((h.head b).getD x) = if h.head b = none then some x else h.head b := by
        cases h.head b <;> simp
      have hlast : h.tail b ≠ some x := by
        intro heq
        exact hnot b (List.mem_of_getLast? (hh.tail_eq_some_iff.mp heq))
      rw [Function.update_self, Function.update_self, hhead]
      refine (hh.forward b).concat (by rw [if_neg hlast, if_pos rfl]) fun y hy ↦ ?_
      have hyx : y ≠ x := by
        rintro rfl
        exact hnot b hy
      rw [if_neg hyx]
      refine if_congr ?_ rfl rfl
      rw [(hh.forward b).next_eq_none_iff (hh.nodup b) hy, hh.tail_eq_some_iff]
    · rw [Function.update_of_ne hb, Function.update_of_ne hb]
      refine (hh.forward b).congr fun y hy ↦ ?_
      have hyx : y ≠ x := by
        rintro rfl
        exact hnot b hy
      have hlast : h.tail a ≠ some y := by
        intro heq
        exact hb (hh.eq_of_mem hy (List.mem_of_getLast? (hh.tail_eq_some_iff.mp heq)))
      rw [if_neg hlast, if_neg hyx]
  · intro b
    dsimp only
    have hkeep : ∀ y ∈ lists b, Function.update h.prev x (h.tail a) y = h.prev y := by
      intro y hy
      refine Function.update_of_ne ?_ _ _
      rintro rfl
      exact hnot b hy
    by_cases hb : b = a
    · subst hb
      rw [Function.update_self, Function.update_self, List.reverse_append]
      refine ⟨rfl, ?_⟩
      rw [Function.update_self]
      exact (hh.backward b).congr fun y hy ↦ hkeep y (List.mem_reverse.mp hy)
    · rw [Function.update_of_ne hb, Function.update_of_ne hb]
      exact (hh.backward b).congr fun y hy ↦ hkeep y (List.mem_reverse.mp hy)
  · intro y b
    by_cases hb : b = a <;> by_cases hy : y = x
    · subst hb hy
      simp
    · subst hb
      simp [hy, hh.list]
    · subst hy
      simp [hb, hnot b, Ne.symm hb]
    · simp [hb, hy, hh.list]
  · intro b
    by_cases hb : b = a
    · subst hb
      rw [Function.update_self]
      rw [← List.concat_eq_append]
      exact (hh.nodup b).concat (hnot b)
    · rw [Function.update_of_ne hb]
      exact hh.nodup b
  · intro b
    by_cases hb : b = a
    · subst hb
      simp [hh.items]
    · simp [hb, hh.items]

/-- An item is removed from its list. -/
theorem remove (hh : Holds h lists) (hx : x ∈ lists a) :
    Holds (h.remove a x) (Function.update lists a ((lists a).erase x)) := by
  obtain ⟨hnext, hprev⟩ := hh.neighbour_ne hx
  have hother : ∀ b, b ≠ a → ∀ y ∈ lists b, h.prev x ≠ some y ∧ h.next x ≠ some y := by
    refine fun b hb y hy ↦ ⟨fun heq ↦ hb ?_, fun heq ↦ hb ?_⟩
    · have hmem := (hh.backward a).mem_of_next (List.mem_reverse.mpr hx) heq
      exact hh.eq_of_mem hy (List.mem_reverse.mp hmem)
    · exact hh.eq_of_mem hy ((hh.forward a).mem_of_next hx heq)
  rw [h.remove_eq a x hprev hnext]
  refine ⟨?_, ?_, ?_, ?_, ?_⟩
  · intro b
    dsimp only
    by_cases hb : b = a
    · subst hb
      rw [Function.update_self, Function.update_self]
      refine (hh.forward b).erase (hh.nodup b) hx fun y hy _ ↦ ?_
      exact if_congr ((hh.forward b).next_eq_some_iff (hh.backward b) hx hy).symm rfl rfl
    · rw [Function.update_of_ne hb, Function.update_of_ne hb]
      exact (hh.forward b).congr fun y hy ↦ if_neg (hother b hb y hy).1
  · intro b
    dsimp only
    by_cases hb : b = a
    · subst hb
      have hreverse : ((lists b).erase x).reverse = (lists b).reverse.erase x := by
        rw [(hh.nodup b).erase_eq_filter, (List.nodup_reverse.mpr (hh.nodup b)).erase_eq_filter,
          List.filter_reverse]
      rw [Function.update_self, Function.update_self, hreverse]
      refine (hh.backward b).erase (List.nodup_reverse.mpr (hh.nodup b))
        (List.mem_reverse.mpr hx) fun y hy _ ↦ ?_
      exact if_congr ((hh.forward b).next_eq_some_iff (hh.backward b) (List.mem_reverse.mp hy) hx)
        rfl rfl
    · rw [Function.update_of_ne hb, Function.update_of_ne hb]
      exact (hh.backward b).congr fun y hy ↦ if_neg (hother b hb y (List.mem_reverse.mp hy)).2
  · intro y b
    by_cases hb : b = a <;> by_cases hy : y = x
    · subst hb hy
      simp [(hh.nodup b).mem_erase_iff]
    · subst hb
      simp [hy, hh.list, List.mem_erase_of_ne hy]
    · subst hy
      have hnot : y ∉ lists b := fun hmem ↦ hb (hh.eq_of_mem hmem hx)
      simp [hb, hnot]
    · simp [hb, hy, hh.list]
  · intro b
    by_cases hb : b = a
    · subst hb
      rw [Function.update_self]
      exact (hh.nodup b).erase x
    · rw [Function.update_of_ne hb]
      exact hh.nodup b
  · intro b
    by_cases hb : b = a
    · subst hb
      have hpos : 0 < (lists b).length := List.length_pos_of_mem hx
      dsimp only
      rw [Function.update_self, Function.update_self, hh.items, List.length_erase_of_mem hx]
      omega
    · simp [hb, hh.items]

omit [DecidableEq ι] in
/-- Only the links and the counts matter. -/
theorem setLocked (hh : Holds h lists) (a : τ) (flag : Bool) : Holds (h.setLocked a flag) lists :=
  ⟨hh.forward, hh.backward, hh.list, hh.nodup, hh.items⟩

omit [DecidableEq ι] in
/-- An empty list may be created again. -/
theorem create (hh : Holds h lists) (ha : lists a = []) : Holds (h.create a) lists := by
  refine ⟨?_, ?_, hh.list, hh.nodup, ?_⟩ <;> intro b <;> by_cases hb : b = a
  · subst hb
    simp [Heap.create, ha]
  · simpa [Heap.create, hb] using hh.forward b
  · subst hb
    simp [Heap.create, ha]
  · simpa [Heap.create, hb] using hh.backward b
  · subst hb
    simp [Heap.create, ha]
  · simpa [Heap.create, hb] using hh.items b

omit [DecidableEq τ] in
/-- An item on no list may be cleared. -/
theorem clear (hh : Holds h lists) (hx : h.list x = none) : Holds (h.clear x) lists := by
  have hne : ∀ b, ∀ y ∈ lists b, y ≠ x := by
    rintro b y hy rfl
    rw [(hh.list y b).mpr hy] at hx
    cases hx
  refine ⟨?_, ?_, ?_, hh.nodup, hh.items⟩
  · exact fun b ↦ (hh.forward b).congr fun y hy ↦ Function.update_of_ne (hne b y hy) _ _
  · exact fun b ↦ (hh.backward b).congr fun y hy ↦
      Function.update_of_ne (hne b y (List.mem_reverse.mp hy)) _ _
  · intro y b
    by_cases hy : y = x
    · subst hy
      rw [← hh.list, hx]
      simp [Heap.clear]
    · simp [Heap.clear, hy, hh.list]

end Holds

/-! ## The calls -/

namespace Heap

omit [DecidableEq ι] in
@[simp]
theorem setLocked_setLocked (flag flag' : Bool) :
    (h.setLocked a flag).setLocked a flag' = h.setLocked a flag' := by
  simp [setLocked]

theorem add_setLocked (flag : Bool) (location : Location) :
    (h.setLocked b flag).add a x location = (h.add a x location).setLocked b flag := by
  cases location with
  | atTail =>
      simp only [add_atTail]
      rfl
  | atHead =>
      cases hhead : h.head a with
      | none => simp [add, fixNext, fixPrev, fixEnds, setLocked, hhead]
      | some first =>
          by_cases hx : x = first
          · subst hx
            simp [add, fixNext, fixPrev, fixEnds, setLocked, hhead]
          · simp [add, fixNext, fixPrev, fixEnds, setLocked, hhead, hx]

theorem remove_setLocked (flag : Bool) :
    (h.setLocked b flag).remove a x = (h.remove a x).setLocked b flag := by
  simp only [remove, unlinkEnds, unlinkPrev_eq, unlinkNext_eq, setLocked]

/-- The flag of a list after a call that was told whether the list is locked. -/
def settle (a : τ) (locked : Bool) (h : Heap ι τ) : Heap ι τ :=
  if locked then h else h.setLocked a false

end Heap

omit [DecidableEq ι] in
theorem Holds.settle (hh : Holds h lists) (a : τ) (locked : Bool) :
    Holds (h.settle a locked) lists := by
  unfold Heap.settle
  split_ifs
  · exact hh
  · exact hh.setLocked a false

section Calls

variable {real : Bool} {m : μ} {held : Finset μ} {locked : Bool} {location : Location}

omit [DecidableEq ι] in
theorem linkedListLock_eq (hfree : Free real m held) (a : τ) (h : Heap ι τ) :
    linkedListLock real m a h held = .ok (h.setLocked a true, holding real m held) := by
  rw [linkedListLock, bind_of_ok (acquire_of_free hfree), pure_eq]

omit [DecidableEq ι] in
theorem linkedListUnlock_eq (hfree : Free real m held) (a : τ) (h : Heap ι τ) :
    linkedListUnlock real m a h (holding real m held) = .ok (h.setLocked a false, held) := by
  rw [linkedListUnlock, bind_of_ok (release_holding hfree), pure_eq]

omit [DecidableEq ι] in
theorem lockUnless_false (hfree : Free real m held) (a : τ) (h : Heap ι τ) :
    lockUnless real m a h false held = .ok (h.setLocked a true, holding real m held) :=
  linkedListLock_eq hfree a h

omit [DecidableEq ι] in
theorem unlockUnless_false (hfree : Free real m held) (a : τ) (h : Heap ι τ) :
    unlockUnless real m a h false (holding real m held) = .ok (h.setLocked a false, held) :=
  linkedListUnlock_eq hfree a h

theorem linkedListAdd_eq (hfree : locked = false → Free real m held) (a : τ) (h : Heap ι τ)
    (x : ι) :
    linkedListAdd real m a h x locked location held =
      .ok ((h.add a x location).settle a locked, held) := by
  cases locked with
  | true => rfl
  | false =>
      unfold linkedListAdd
      rw [bind_of_ok (lockUnless_false (hfree rfl) a h), Heap.add_setLocked,
        unlockUnless_false (hfree rfl), Heap.setLocked_setLocked]
      rfl

/-- To add to a list without its lock while the lock is held. -/
theorem linkedListAdd_deadlock (hheld : m ∈ held) (a : τ) (h : Heap ι τ) (x : ι) :
    linkedListAdd true m a h x false location held = .error .deadlock := by
  have hlock : lockUnless true m a h false held = .error .deadlock := by
    rw [lockUnless, if_neg Bool.false_ne_true, linkedListLock, bind_of_error]
    exact lock_of_mem hheld
  unfold linkedListAdd
  rw [bind_of_error hlock]

theorem linkedListRemove_eq (hfree : locked = false → Free real m held)
    (hlist : h.list x = some a) :
    linkedListRemove real m a h x locked held = .ok ((h.remove a x).settle a locked, held) := by
  unfold linkedListRemove
  rw [if_neg (not_not_intro hlist)]
  cases locked with
  | true => rfl
  | false =>
      rw [bind_of_ok (lockUnless_false (hfree rfl) a h), Heap.remove_setLocked,
        unlockUnless_false (hfree rfl), Heap.setLocked_setLocked]
      rfl

omit [DecidableEq ι] in
theorem linkedListCount_eq (hfree : Free real m held) (a : τ) (h : Heap ι τ) :
    linkedListCount real m a h false held = .ok ((h.setLocked a false, h.items a), held) := by
  unfold linkedListCount
  rw [bind_of_ok (lockUnless_false hfree a h), bind_of_ok (unlockUnless_false hfree _ _),
    Heap.setLocked_setLocked]
  rfl

end Calls

end HavokMud.LinkedList
