import HavokMud.LinkedList.Chains
import Mathlib.Data.Set.Finite.Basic
import Mathlib.Order.WellFoundedSet

/-!
# Links that lead upwards

An element may have a link to one other element.  Where finitely many elements have links and none
is reached from its own, the links from every element end.  They still do with a new link to an
element from which the links do not come back.
-/

namespace HavokMud.LinkedList

variable {ι : Type} {next : ι → Option ι} {p q : Option ι} {xs : List ι} {x y : ι}

/-- The links from every element end. -/
def Ending (next : ι → Option ι) : Prop :=
  ∀ x, ∃ xs, Linked next (some x) xs

/-! ## What is reached -/

theorem reached_some : Reached next (some y) x ↔ x = y ∨ Reached next (next y) x := by
  constructor
  · intro h
    cases h with
    | here => exact .inl rfl
    | there h => exact .inr h
  · rintro (rfl | h)
    · exact .here x
    · exact .there h

theorem Reached.trans (hy : Reached next p y) (hx : Reached next (next y) x) :
    Reached next p x := by
  induction hy with
  | here y => exact .there hx
  | there _ ih => exact .there (ih hx)

/-- What leads to an element does not depend on the link of the element. -/
theorem Reached.update [DecidableEq ι] (h : Reached next p x) (q : Option ι) :
    Reached (Function.update next x q) p x := by
  induction h with
  | here x => exact .here x
  | @there x y _ ih =>
      by_cases hy : y = x
      · subst hy
        exact .here y
      · refine .there ?_
        rwa [Function.update_of_ne hy]

/-! ## Where the links end -/

theorem Linked.nodup (h : Linked next p xs) : xs.Nodup := by
  induction xs generalizing p with
  | nil => exact List.nodup_nil
  | cons x xs ih =>
      obtain ⟨rfl, hrest⟩ := h
      refine List.nodup_cons.mpr ⟨fun hmem ↦ ?_, ih hrest⟩
      -- the chain from `x` would be a part of what follows `x`
      obtain ⟨before, after, rfl⟩ := List.append_of_mem hmem
      have htail : Linked next (some x) (x :: after) := by
        refine ⟨rfl, ?_⟩
        have hdrop : ∀ {q : Option ι} {zs : List ι}, Linked next q (zs ++ x :: after) →
            Linked next (next x) after := by
          intro q zs
          induction zs generalizing q with
          | nil => exact fun h ↦ h.2
          | cons z zs ih => exact fun h ↦ ih h.2
        exact hdrop hrest
      have heq := Linked.unique (linked_cons.mpr ⟨rfl, hrest⟩) htail
      have hlength := congrArg List.length heq
      simp only [List.length_cons, List.length_append] at hlength
      omega

section Update

variable [DecidableEq ι]

/-- A link from which the links end. -/
theorem Ending.update (h : Ending next) {x : ι} {q : Option ι}
    (hq : ∃ ys, Linked (Function.update next x q) q ys) : Ending (Function.update next x q) := by
  obtain ⟨ys, hys⟩ := hq
  have hchain : ∀ (zs : List ι) (r : Option ι), Linked next r zs →
      ∃ zs', Linked (Function.update next x q) r zs' := by
    intro zs
    induction zs with
    | nil => exact fun r hr ↦ ⟨[], hr⟩
    | cons z zs ih =>
        rintro r ⟨rfl, hrest⟩
        by_cases hz : z = x
        · subst hz
          refine ⟨z :: ys, rfl, ?_⟩
          rwa [Function.update_self]
        · obtain ⟨zs', hzs'⟩ := ih _ hrest
          refine ⟨z :: zs', rfl, ?_⟩
          rwa [Function.update_of_ne hz]
  intro z
  obtain ⟨zs, hzs⟩ := h z
  exact hchain zs _ hzs

end Update

end HavokMud.LinkedList
