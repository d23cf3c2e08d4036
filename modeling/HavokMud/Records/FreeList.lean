import Mathlib.Data.List.Nodup
import Mathlib.Data.List.Range
import Mathlib.Data.Nat.Notation

/-!
# Records handed out from pages

Records of one kind are carved from pages a page at a time and recycled through a list.  A record
is taken from the head of the list, which is first filled from a new page when it is empty, and
given back at the tail.
-/

namespace HavokMud.Records

/-- The recycled records, and the first record that no page holds yet. -/
structure FreeList where
  free : List ℕ
  next : ℕ

namespace FreeList

/-- Take a record.  The flag tells whether a page of `perPage` records was added. -/
def take (records : FreeList) (perPage : ℕ) : Option (ℕ × FreeList × Bool) :=
  match records.free with
  | id :: rest => some (id, ⟨rest, records.next⟩, false)
  | [] =>
      match List.range' records.next perPage with
      | [] => none
      | id :: rest => some (id, ⟨rest, records.next + perPage⟩, true)

/-- Give a record back. -/
def put (records : FreeList) (id : ℕ) : FreeList :=
  { records with free := records.free ++ [id] }

/-- The list holds no record in use, none twice, and pages hold all records in use. -/
structure Keeps (records : FreeList) (used : ℕ → Prop) : Prop where
  nodup : records.free.Nodup
  lt : ∀ id ∈ records.free, id < records.next
  unused : ∀ id ∈ records.free, ¬ used id
  used_lt : ∀ id, used id → id < records.next

variable {records : FreeList} {used used' : ℕ → Prop}

theorem Keeps.congr (h : Keeps records used) (hused : ∀ id, used' id ↔ used id) :
    Keeps records used' :=
  ⟨h.nodup, h.lt, fun id hid hu ↦ h.unused id hid ((hused id).mp hu),
    fun id hu ↦ h.used_lt id ((hused id).mp hu)⟩

/-- Taking a record yields one that is not in use. -/
theorem Keeps.take (h : Keeps records used) {perPage : ℕ} (hpage : 0 < perPage) :
    ∃ id records' grown, records.take perPage = some (id, records', grown) ∧ ¬ used id ∧
      Keeps records' fun x ↦ x = id ∨ used x := by
  obtain ⟨free, next⟩ := records
  cases free with
  | cons id rest =>
      have hnodup := List.nodup_cons.mp h.nodup
      refine ⟨id, ⟨rest, next⟩, false, rfl, h.unused id (by simp), hnodup.2, ?_, ?_, ?_⟩
      · exact fun x hx ↦ h.lt x (by simp [hx])
      · rintro x hx (rfl | hu)
        · exact hnodup.1 hx
        · exact h.unused x (by simp [hx]) hu
      · rintro x (rfl | hu)
        · exact h.lt x (by simp)
        · exact h.used_lt x hu
  | nil =>
      obtain ⟨n, rfl⟩ : ∃ n, perPage = n + 1 := ⟨perPage - 1, by omega⟩
      have hfresh : ∀ x, next ≤ x → ¬ used x := fun x hx hu ↦
        absurd (h.used_lt x hu) (Nat.not_lt.mpr hx)
      refine ⟨next, ⟨List.range' (next + 1) n, next + (n + 1)⟩, true, by simp [FreeList.take,
        List.range'_succ], hfresh next le_rfl, List.nodup_range', ?_, ?_, ?_⟩
      · intro x hx
        have hx' := List.mem_range'_1.mp hx
        dsimp only
        omega
      · rintro x hx (rfl | hu)
        · have hx' := List.mem_range'_1.mp hx
          omega
        · have hx' := List.mem_range'_1.mp hx
          exact hfresh x (by omega) hu
      · rintro x (rfl | hu)
        · dsimp only
          omega
        · have hlt := h.used_lt x hu
          dsimp only at hlt ⊢
          omega

/-- Giving a record back when nothing uses it any more. -/
theorem Keeps.put (h : Keeps records used) {id : ℕ} (hid : used id) :
    Keeps (records.put id) fun x ↦ used x ∧ x ≠ id where
  nodup := by
    rw [FreeList.put, List.nodup_append]
    refine ⟨h.nodup, List.nodup_singleton id, fun x hx y hy heq ↦ ?_⟩
    rw [List.mem_singleton.mp hy] at heq
    exact h.unused x hx (heq ▸ hid)
  lt x hx := by
    rcases List.mem_append.mp hx with hx | hx
    · exact h.lt x hx
    · rw [List.mem_singleton.mp hx]
      exact h.used_lt id hid
  unused x hx hu := by
    rcases List.mem_append.mp hx with hx | hx
    · exact h.unused x hx hu.1
    · exact hu.2 (List.mem_singleton.mp hx)
  used_lt x hu := h.used_lt x hu.1

end FreeList

end HavokMud.Records
