import Mathlib.Data.List.Range
import Mathlib.Data.Nat.ModEq
import Mathlib.Logic.Function.Basic

/-!
# Windows of a ring

A ring of slots is read from a start slot on, around its end.  Slots less than a whole turn apart
are different, so a write outside of a window does not change it.
-/

namespace HavokMud.Cyclic

variable {β : Type} {size start stop count offset offset' : ℕ} {slot slot' : ℕ → β}

/-- The slots of a ring from `start` on. -/
def window (size : ℕ) (slot : ℕ → β) (start count : ℕ) : List β :=
  (List.range count).map fun k ↦ slot ((start + k) % size)

@[simp] theorem window_zero : window size slot start 0 = [] :=
  rfl

@[simp] theorem length_window : (window size slot start count).length = count := by
  unfold window
  rw [List.length_map, List.length_range]

theorem window_succ : window size slot start (count + 1) =
    window size slot start count ++ [slot ((start + count) % size)] := by
  unfold window
  rw [List.range_succ, List.map_append]
  rfl

theorem window_mod : window size slot (start % size) count = window size slot start count := by
  unfold window
  apply List.map_congr_left
  intro k _
  rw [Nat.mod_add_mod]

theorem window_cons : window size slot start (count + 1) =
    slot (start % size) :: window size slot (start + 1) count := by
  unfold window
  rw [List.range_succ_eq_map, List.map_cons, List.map_map]
  congr 1
  apply List.map_congr_left
  intro k _
  rw [Function.comp_apply, Nat.add_right_comm, Nat.add_assoc]

theorem window_congr
    (h : ∀ k < count, slot ((start + k) % size) = slot' ((start + k) % size)) :
    window size slot start count = window size slot' start count := by
  unfold window
  apply List.map_congr_left
  intro k hk
  exact h k (List.mem_range.mp hk)

/-- Less than a turn from the start, an offset is known by its slot. -/
theorem offset_inj (hoffset : offset < size) (hoffset' : offset' < size)
    (h : (start + offset) % size = (start + offset') % size) : offset = offset' := by
  have hmod : offset % size = offset' % size := Nat.ModEq.add_left_cancel' start h
  rwa [Nat.mod_eq_of_lt hoffset, Nat.mod_eq_of_lt hoffset'] at hmod

/-- A write at the end of a window that does not fill the ring. -/
theorem window_update (hcount : count < size) (value : β) :
    window size (Function.update slot ((start + count) % size) value) start count =
      window size slot start count := by
  apply window_congr
  intro k hk
  apply Function.update_of_ne
  intro heq
  exact hk.ne (offset_inj (hk.trans hcount) hcount heq)

/-- A write in front of a window that does not fill the ring. -/
theorem window_update_before (hstart : start < size) (hcount : count < size) (value : β) :
    window size (Function.update slot start value) (start + 1) count =
      window size slot (start + 1) count := by
  apply window_congr
  intro k hk
  apply Function.update_of_ne
  rw [Nat.add_assoc]
  intro heq
  have hzero : 1 + k = 0 := by
    apply offset_inj (by omega) (by omega) (heq.trans _)
    exact (Nat.mod_eq_of_lt hstart).symm
  omega

/-! ## Distances -/

/-- How far it is from a start to a stop, around the ring. -/
def distance (size start stop : ℕ) : ℕ :=
  (stop + size - start) % size

theorem distance_lt (hstop : stop < size) : distance size start stop < size :=
  Nat.mod_lt _ (by omega)

theorem add_distance (hstart : start < size) (hstop : stop < size) :
    (start + distance size start stop) % size = stop := by
  unfold distance
  rw [Nat.add_mod_mod, Nat.add_sub_cancel' (by omega), Nat.add_mod_right, Nat.mod_eq_of_lt hstop]

theorem distance_unique (hstart : start < size) (hstop : stop < size) (hcount : count < size)
    (h : (start + count) % size = stop) : distance size start stop = count :=
  offset_inj (distance_lt hstop) hcount ((add_distance hstart hstop).trans h.symm)

theorem distance_eq_zero_iff (hstart : start < size) (hstop : stop < size) :
    distance size start stop = 0 ↔ stop = start := by
  constructor
  · intro h
    have hadd := add_distance hstart hstop
    rw [h, Nat.add_zero, Nat.mod_eq_of_lt hstart] at hadd
    exact hadd.symm
  · rintro rfl
    apply distance_unique hstart hstop (by omega)
    exact Nat.mod_eq_of_lt hstart

/-- A step of the stop, if it does not reach the start. -/
theorem distance_succ_stop (hstart : start < size) (hstop : stop < size)
    (h : distance size start stop + 1 < size) :
    distance size start ((stop + 1) % size) = distance size start stop + 1 := by
  apply distance_unique hstart (Nat.mod_lt _ (by omega)) h
  rw [← Nat.add_assoc, ← Nat.mod_add_mod, add_distance hstart hstop]

/-- A step of the start towards the stop. -/
theorem distance_succ_start (hstart : start < size) (hstop : stop < size)
    (h : distance size start stop ≠ 0) :
    distance size ((start + 1) % size) stop + 1 = distance size start stop := by
  have hlt : distance size start stop < size := distance_lt hstop
  suffices hd : distance size ((start + 1) % size) stop = distance size start stop - 1 by omega
  apply distance_unique (Nat.mod_lt _ (by omega)) hstop (by omega)
  rw [Nat.mod_add_mod, Nat.add_assoc, Nat.add_sub_cancel' (by omega), add_distance hstart hstop]

end HavokMud.Cyclic
