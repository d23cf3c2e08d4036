import HavokMud.BTree.Forest
import HavokMud.BTree.Iteration
import Mathlib.Data.List.TakeWhile

/-!
# Range scans

`BalancedBTreeFindLeastInRange` begins where `BalancedBTreeFindParent` would hang an item with the
least key, and equal keys go to the right there.  So it comes to the item of that very key only if
that has nothing on the right, and then it does not look at the greatest key.
-/

namespace HavokMud.BTree

open BinaryTree SearchTree Interaction Traced

/-- The descent of `BalancedBTreeFindParent` ends at the first item above the key, from which it
would go to the left, or at the last item that is not above it. -/
theorem findParentLoop_cases {ι κ τ : Type} {keyCompare : κ → κ → ℤ} {h : Heap ι κ τ} {key : κ}
    {prev parent p : Option ι} {t : BinaryTree ι} (hsub : Subtree h parent p t)
    (hcut : Cut (probe keyCompare h key) (inorder t)) (hne : t ≠ .nil) {fuel : ℕ}
    (hfuel : t.numNodes ≤ fuel) :
    ∃ x before after, findParentLoop keyCompare h key fuel prev p = some (some x) ∧
      inorder t = before ++ x :: after ∧
      (probe keyCompare h key x < 0 ∧ (∀ y ∈ before, ¬ probe keyCompare h key y < 0) ∧
          (∀ y ∈ before.getLast?, h.right y ≠ none) ∨
        ¬ probe keyCompare h key x < 0 ∧ (∀ y ∈ after, probe keyCompare h key y < 0) ∧
          h.right x = none) := by
  induction t generalizing prev parent p fuel with
  | nil => exact absurd rfl hne
  | node a l r ihl ihr =>
      obtain ⟨rfl, -, hl, hr⟩ := hsub
      obtain ⟨hcutl, hcutr, hla, har, -⟩ := Cut.node_iff.mp hcut
      simp only [numNodes] at hfuel
      obtain ⟨fuel, rfl⟩ : ∃ less, fuel = less + 1 := ⟨fuel - 1, by omega⟩
      by_cases hneg : keyCompare key (h.key a) < 0
      · cases l with
        | nil =>
            refine ⟨a, [], inorder r, ?_, by simp, .inl ⟨hneg, by simp, by simp⟩⟩
            rw [subtree_nil] at hl
            rw [findParentLoop, if_pos hneg, hl]
            cases fuel <;> rfl
        | node b l₁ l₂ =>
            obtain ⟨x, before, after, hrun, hsplit, hcases⟩ :=
              @ihl (some a) _ _ hl hcutl (by simp) fuel (by omega)
            refine ⟨x, before, after ++ a :: inorder r, ?_, by simp [hsplit], ?_⟩
            · rw [findParentLoop, if_pos hneg, hrun]
            · rcases hcases with hleft | ⟨hx, hafter, hright⟩
              · exact .inl hleft
              · refine .inr ⟨hx, ?_, hright⟩
                intro y hy
                rcases List.mem_append.mp hy with hy | hy
                · exact hafter y hy
                · rcases List.mem_cons.mp hy with rfl | hy
                  · exact hneg
                  · exact har y hy hneg.le
      · cases r with
        | nil =>
            rw [subtree_nil] at hr
            refine ⟨a, inorder l, [], ?_, by simp, .inr ⟨hneg, by simp, hr⟩⟩
            rw [findParentLoop, if_neg hneg, hr]
            cases fuel <;> rfl
        | node b r₁ r₂ =>
            obtain ⟨x, before, after, hrun, hsplit, hcases⟩ :=
              @ihr (some a) _ _ hr hcutr (by simp) fuel (by omega)
            refine ⟨x, inorder l ++ a :: before, after, ?_, by simp [hsplit], ?_⟩
            · rw [findParentLoop, if_neg hneg, hrun]
            · rcases hcases with ⟨hx, hbefore, hright⟩ | hlast
              · refine .inl ⟨hx, ?_, ?_⟩
                · intro y hy
                  rcases List.mem_append.mp hy with hy | hy
                  · exact fun hlt ↦ hneg (hla y hy hlt.le)
                  · rcases List.mem_cons.mp hy with rfl | hy
                    · exact hneg
                    · exact hbefore y hy
                · intro y hy
                  rw [List.getLast?_append_cons] at hy
                  cases before with
                  | nil =>
                      obtain rfl : a = y := by simpa using hy
                      rw [hr.1]
                      simp
                  | cons c before => exact hright y (by simpa using hy)
              · exact .inr hlast

namespace Locks

variable {ι κ τ : Type} [DecidableEq ι] [DecidableEq τ]

section Functions

variable (keyCompare : κ → κ → ℤ) (fuel : ℕ) (btree : τ) (locked : Bool) (first : κ)
  (last : Option κ)

/-- `BalancedBTreeFindNextInRange` from an item on, as long as it returns one. -/
def rangeFrom : ℕ → Heap ι κ τ → Option ι → Traced τ (Heap ι κ τ × List ι)
  | _, h, none => pure (h, [])
  | 0, _, some _ => compute none
  | turns + 1, h, some item => do
      let (h, next) ←
        balancedBTreeFindNextInRange keyCompare fuel h btree (some item) locked first last
      let (h, items) ← rangeFrom turns h next
      pure (h, item :: items)

/-- `BalancedBTreeFindLeastInRange`, and then `BalancedBTreeFindNextInRange` until it returns
NULL. -/
def scanRange (h : Heap ι κ τ) : Traced τ (Heap ι κ τ × List ι) := do
  let (h, least) ← balancedBTreeFindLeastInRange keyCompare fuel h btree locked first last
  rangeFrom keyCompare fuel btree locked first last fuel h least

/-- A key is not greater than the end of the range, if that has one. -/
def Upper (key : κ) : Prop :=
  compareBound keyCompare key last ≤ 0

instance decidableUpper : DecidablePred (Upper keyCompare last) :=
  fun _ ↦ Int.decLe _ _

/-- The scan returns the items with keys in the range once each, by ascending keys. -/
def ScansExactly (h : Heap ι κ τ) (items : List ι) : Prop :=
  ∃ h' returned, (scanRange keyCompare fuel btree locked first last h).result =
      some (h', returned) ∧
    returned.Pairwise (fun a b ↦ keyCompare (h.key a) (h.key b) < 0) ∧
    ∀ a, a ∈ returned ↔
      a ∈ items ∧ 0 ≤ keyCompare (h.key a) first ∧ Upper keyCompare last (h.key a)

end Functions

section Results

variable {keyCompare : κ → κ → ℤ} {h : Heap ι κ τ} {btree : τ} {fuel : ℕ} {first : κ}
  {last : Option κ}

omit [DecidableEq τ] in
@[simp]
theorem result_balancedBTreeFindNextInRange (item : ι) (locked : Bool) :
    (balancedBTreeFindNextInRange keyCompare fuel h btree (some item) locked first last).result =
      findNextLoop fuel (checkRange keyCompare h first last) fuel h item := by
  simp [balancedBTreeFindNextInRange, result_bind]

omit [DecidableEq τ] in
/-- What a scan returns begins with the item that it goes on from. -/
theorem rangeFrom_some {locked : Bool} {turns : ℕ} {a : ι} {r : Heap ι κ τ × List ι}
    (hrun : (rangeFrom keyCompare fuel btree locked first last turns h (some a)).result =
      some r) : ∃ rest, r.2 = a :: rest := by
  cases turns with
  | zero => simp [rangeFrom] at hrun
  | succ turns =>
      simp only [rangeFrom, result_bind, Option.bind_eq_some_iff] at hrun
      obtain ⟨next, -, rest, -, hr⟩ := hrun
      simp only [pure_eq, result_compute, Option.some.injEq] at hr
      exact ⟨rest.2, hr ▸ rfl⟩

omit [DecidableEq ι] [DecidableEq τ] in
theorem checkRange_of_ge {a : ι} (hge : 0 ≤ keyCompare (h.key a) first) :
    checkRange keyCompare h first last a =
      some ((some a).filter fun a ↦ Upper keyCompare last (h.key a)) := by
  rw [checkRange, if_pos hge]
  by_cases hupper : compareBound keyCompare (h.key a) last ≤ 0 <;>
    simp [Upper, Option.filter_some, hupper]

omit [DecidableEq ι] [DecidableEq τ] in
theorem checkRange_of_lt {a : ι} (hlt : keyCompare (h.key a) first < 0) :
    checkRange keyCompare h first last a = none := by
  rw [checkRange, if_neg (not_le.mpr hlt)]

end Results

section Scan

variable {keyCompare : κ → κ → ℤ} {h : Heap ι κ τ} {btree : τ} {items before after : List ι}
  {t : BinaryTree ι} {a : ι} {fuel : ℕ} {first : κ} {last : Option κ}

/-- A scan has come to an item, and what is after it is above the beginning of the range. -/
structure Scanning (keyCompare : κ → κ → ℤ) (first : κ) (last : Option κ) (h : Heap ι κ τ)
    (btree : τ) (before : List ι) (a : ι) (after : List ι) (t : BinaryTree ι) : Prop where
  represents : Represents h btree t
  split : inorder t = before ++ a :: after
  behind : ∀ x ∈ before, Behind (checkRange keyCompare h first last) h.visited x
  ahead : ∀ x ∈ after, h.visited x = 0
  above : ∀ x ∈ after, 0 ≤ keyCompare (h.key x) first

omit [DecidableEq τ] in
/-- The next item is found unless it is above the end of the range. -/
theorem Scanning.findNext (hscan : Scanning keyCompare first last h btree before a after t)
    (hfuel : t.numNodes ≤ fuel) :
    ∃ v, findNextLoop fuel (checkRange keyCompare h first last) fuel h a =
        some (h.visit v, after.head?.filter fun b ↦ Upper keyCompare last (h.key b)) ∧
      ∀ b after', after = b :: after' →
        Scanning keyCompare first last (h.visit v) btree (before ++ [a]) b after' t := by
  obtain ⟨v, turns, hleaves, hrun⟩ := findNextLoop_walkAt hscan.represents hscan.split
    hscan.behind hscan.ahead hfuel
  refine ⟨v, ?_, ?_⟩
  · refine hrun.trans ?_
    cases after with
    | nil => rfl
    | cons b after =>
        have hzero : (h.visit v).visited b = 0 := hleaves.after b List.mem_cons_self
        simp only [List.head?_cons, walkAt, hzero, if_true,
          checkRange_of_ge (hscan.above b List.mem_cons_self)]
  · rintro b after' rfl
    refine ⟨hscan.represents.visit v, by simp [hscan.split], ?_, ?_, ?_⟩
    · intro x hx
      rcases List.mem_append.mp hx with hx | hx
      · exact (hscan.behind x hx).imp_left fun hpos ↦ hpos.trans_le (hleaves.grows x)
      · obtain rfl := List.mem_singleton.mp hx
        exact .inl hleaves.here
    · exact fun x hx ↦ hleaves.after x (List.mem_cons_of_mem b hx)
    · exact fun x hx ↦ hscan.above x (List.mem_cons_of_mem b hx)

omit [DecidableEq τ] in
/-- From an item on a scan returns that one, and those after it up to the end of the range. -/
theorem rangeFrom_eq (hscan : Scanning keyCompare first last h btree before a after t)
    (hfuel : t.numNodes ≤ fuel) (locked : Bool) {turns : ℕ} (hturns : after.length < turns) :
    ∃ h', (rangeFrom keyCompare fuel btree locked first last turns h (some a)).result =
      some (h', a :: after.takeWhile fun b ↦ Upper keyCompare last (h.key b)) := by
  obtain ⟨turns, rfl⟩ : ∃ less, turns = less + 1 := ⟨turns - 1, by omega⟩
  induction after generalizing h before a turns with
  | nil =>
      obtain ⟨v, hnext, -⟩ := hscan.findNext hfuel
      refine ⟨h.visit v, ?_⟩
      cases turns <;> simp [rangeFrom, result_bind, hnext]
  | cons b after ih =>
      obtain ⟨v, hnext, hscan'⟩ := hscan.findNext hfuel
      simp only [List.length_cons] at hturns
      obtain ⟨turns, rfl⟩ : ∃ less, turns = less + 1 := ⟨turns - 1, by omega⟩
      by_cases hupper : Upper keyCompare last (h.key b)
      · obtain ⟨h', hrest⟩ := ih (hscan' b after rfl) turns (by omega)
        refine ⟨h', ?_⟩
        rw [rangeFrom]
        simp only [result_bind, result_balancedBTreeFindNextInRange, hnext, List.head?_cons,
          Option.filter_some, hupper, decide_true, if_true, Option.bind_some, hrest, pure_eq,
          result_compute, List.takeWhile_cons]
        rfl
      · refine ⟨h.visit v, ?_⟩
        rw [rangeFrom]
        simp only [result_bind, result_balancedBTreeFindNextInRange, hnext, List.head?_cons,
          Option.filter_some, hupper, decide_false, Option.bind_some, pure_eq,
          result_compute, List.takeWhile_cons]
        rfl

end Scan

section Exactness

variable {ω : Type} [LinearOrder ω] {keyCompare : κ → κ → ℤ} {suits : τ → κ → Prop} {rank : κ → ω}
  {h : Heap ι κ τ} {btree : τ} {items before ahead : List ι} {t : BinaryTree ι} {fuel : ℕ}
  {first : κ} {last : Option κ} {k k' : κ}

omit [DecidableEq ι] [DecidableEq τ] in
/-- What is not above a key in the range is not above its end. -/
theorem upper_of_le (horders : Orders keyCompare suits rank)
    (hlast : ∀ k ∈ last, suits btree k) (hk : suits btree k) (hk' : suits btree k')
    (hle : rank k ≤ rank k') (hupper : Upper keyCompare last k') : Upper keyCompare last k := by
  cases last with
  | none => exact le_rfl
  | some l =>
      have hl := hlast l rfl
      have hle' := mt (horders.pos_iff btree k' l hk' hl).mpr (not_lt.mpr hupper)
      exact not_lt.mp (mt (horders.pos_iff btree k l hk hl).mp
        (not_lt.mpr (hle.trans (not_lt.mp hle'))))

omit [DecidableEq ι] [DecidableEq τ] in
/-- Nothing is cut off a list that an antitone property cuts. -/
theorem mem_takeWhile_of_pairwise {p : ι → Bool} {xs : List ι}
    (hxs : xs.Pairwise fun a b ↦ p b → p a) {a : ι} (ha : a ∈ xs) (hp : p a) :
    a ∈ xs.takeWhile p := by
  induction xs with
  | nil => cases ha
  | cons b xs ih =>
      obtain ⟨hb, hxs⟩ := List.pairwise_cons.mp hxs
      rcases List.mem_cons.mp ha with rfl | ha
      · simp [hp]
      · rw [List.takeWhile_cons, if_pos (hb a ha hp)]
        exact List.mem_cons_of_mem b (ih hxs ha)

omit [DecidableEq ι] [DecidableEq τ] in
theorem ranks_pairwise (horders : Orders keyCompare suits rank)
    (hinv : Holds keyCompare h btree items t) (hsuits : ∀ a ∈ items, suits btree (h.key a)) :
    (inorder t).Pairwise fun a b ↦ rank (h.key a) < rank (h.key b) := by
  refine hinv.sorted.imp_of_mem ?_
  intro a b ha hb hlt
  exact (horders.neg_iff btree _ _ (hsuits a (hinv.perm.mem_iff.mp ha))
    (hsuits b (hinv.perm.mem_iff.mp hb))).mp hlt

omit [DecidableEq τ] in
/-- A scan that begins with the first item that is not below the range. -/
theorem scansExactly_of_least (horders : Orders keyCompare suits rank)
    (hinv : Holds keyCompare h btree items t) (hsuits : ∀ a ∈ items, suits btree (h.key a))
    (hlast : ∀ k ∈ last, suits btree k) (hfuel : items.length ≤ fuel) {locked : Bool}
    {v : ι → ℕ} (hsplit : inorder t = before ++ ahead)
    (hbefore : ∀ y ∈ before, 0 ≤ keyCompare (h.key y) first → ¬ Upper keyCompare last (h.key y))
    (hahead : ∀ y ∈ ahead, 0 ≤ keyCompare (h.key y) first)
    (hleast : (balancedBTreeFindLeastInRange keyCompare fuel h btree locked first last).result =
      some (h.visit v, ahead.head?.filter fun b ↦ Upper keyCompare last (h.key b)))
    (hscan : ∀ b after, ahead = b :: after → Upper keyCompare last (h.key b) →
      Scanning keyCompare first last (h.visit v) btree before b after t) :
    ScansExactly keyCompare fuel btree locked first last h items := by
  have hsize : t.numNodes ≤ fuel := by
    rw [hinv.numNodes_eq]
    exact hfuel
  have hmem : ∀ a, a ∈ items ↔ a ∈ before ∨ a ∈ ahead := by
    intro a
    rw [← hinv.perm.mem_iff, hsplit, List.mem_append]
  have hsorted := ranks_pairwise horders hinv hsuits
  rw [hsplit] at hsorted
  have hcut : ahead.Pairwise fun a b ↦
      decide (Upper keyCompare last (h.key b)) → decide (Upper keyCompare last (h.key a)) := by
    refine (List.pairwise_append.mp hsorted).2.1.imp_of_mem ?_
    intro a b ha hb hlt
    simp only [decide_eq_true_eq]
    exact upper_of_le horders hlast (hsuits a ((hmem a).mpr (.inr ha)))
      (hsuits b ((hmem b).mpr (.inr hb))) hlt.le
  have hreturned : ∃ h', (scanRange keyCompare fuel btree locked first last h).result =
      some (h', ahead.takeWhile fun b ↦ Upper keyCompare last (h.key b)) := by
    simp only [scanRange, result_bind, hleast, Option.bind_some]
    cases ahead with
    | nil =>
        refine ⟨h.visit v, ?_⟩
        cases fuel <;> rfl
    | cons b after =>
        by_cases hupper : Upper keyCompare last (h.key b)
        · have hlength : after.length < fuel := by
            have hsum := congrArg List.length hsplit
            rw [length_inorder, List.length_append, List.length_cons] at hsum
            omega
          obtain ⟨h', hrun⟩ := rangeFrom_eq (hscan b after rfl hupper) hsize locked hlength
          refine ⟨h', ?_⟩
          simp only [List.head?_cons, Option.filter_some, hupper, decide_true, if_true,
            List.takeWhile_cons]
          exact hrun
        · refine ⟨h.visit v, ?_⟩
          simp only [List.head?_cons, Option.filter_some, hupper, decide_false,
            List.takeWhile_cons]
          cases fuel <;> rfl
  obtain ⟨h', hrun⟩ := hreturned
  refine ⟨h', _, hrun, ?_, ?_⟩
  · have hsub : (ahead.takeWhile fun b ↦ Upper keyCompare last (h.key b)).Sublist
        (inorder t) := by
      rw [hsplit]
      exact (List.takeWhile_sublist _).trans (List.sublist_append_right _ _)
    exact hinv.sorted.sublist hsub
  · intro a
    rw [hmem]
    constructor
    · intro ha
      have hupper := List.mem_takeWhile_imp ha
      have ha := (List.takeWhile_sublist _).subset ha
      exact ⟨.inr ha, hahead a ha, by simpa using hupper⟩
    · rintro ⟨ha | ha, hge, hupper⟩
      · exact absurd hupper (hbefore a ha hge)
      · exact mem_takeWhile_of_pairwise hcut ha (by simpa using hupper)

omit [DecidableEq τ] in
/-- A scan whose first item is not the least one of the range. -/
theorem not_scansExactly {locked : Bool} {h₁ : Heap ι κ τ} {least : Option ι} {a : ι}
    (hleast : (balancedBTreeFindLeastInRange keyCompare fuel h btree locked first last).result =
      some (h₁, least)) (ha : a ∈ items) (hge : 0 ≤ keyCompare (h.key a) first)
    (hupper : Upper keyCompare last (h.key a)) (hne : least ≠ some a)
    (hfirst : ∀ b, least = some b → ¬ keyCompare (h.key b) (h.key a) < 0) :
    ¬ ScansExactly keyCompare fuel btree locked first last h items := by
  rintro ⟨h', returned, hrun, hsorted, hmem⟩
  have ha' := (hmem a).mpr ⟨ha, hge, hupper⟩
  simp only [scanRange, result_bind, hleast, Option.bind_some] at hrun
  cases least with
  | none =>
      have hempty : returned = [] := by
        have hpair : h₁ = h' ∧ returned = [] := by
          cases fuel <;> simpa [rangeFrom, eq_comm] using hrun
        exact hpair.2
      rw [hempty] at ha'
      cases ha'
  | some b =>
      obtain ⟨rest, rfl⟩ : ∃ rest, returned = b :: rest := rangeFrom_some hrun
      rcases List.mem_cons.mp ha' with rfl | ha'
      · exact hne rfl
      · exact hfirst b rfl ((List.pairwise_cons.mp hsorted).1 a ha')

omit [DecidableEq τ] in
/-- The first call on a tree that is not empty checks the item that the descent ends at. -/
theorem result_balancedBTreeFindLeastInRange {x : ι} (hrep : Represents h btree t)
    (hfuel : t.numNodes ≤ fuel)
    (hparent : balancedBTreeFindParent keyCompare (h.visit (cleared h.visited t)) fuel btree
      first = some (some x)) (locked : Bool) :
    (balancedBTreeFindLeastInRange keyCompare fuel h btree locked first last).result =
      (checkFirst keyCompare fuel (h.visit (cleared h.visited t)) btree x first last).result := by
  have hclear : balancedBTreeUnvisit fuel h (h.root btree) =
      some (h.visit (cleared h.visited t)) :=
    balancedBTreeUnvisit_eq hrep.links h.visited hfuel
  simp [balancedBTreeFindLeastInRange, result_bind, hclear, hparent]

omit [DecidableEq τ] in
theorem checkFirst_of_zero {x : ι} (hzero : keyCompare (h.key x) first = 0) :
    (checkFirst keyCompare fuel h btree x first last).result = some (h, some x) := by
  simp [checkFirst, hzero]

omit [DecidableEq τ] in
theorem checkFirst_of_pos {x : ι} (hpos : 0 < keyCompare (h.key x) first) :
    (checkFirst keyCompare fuel h btree x first last).result =
      some (h, (some x).filter fun b ↦ Upper keyCompare last (h.key b)) := by
  rw [checkFirst, if_neg hpos.ne', if_pos hpos]
  have hnone : last.isNone → Upper keyCompare last (h.key x) := by
    cases last with
    | none => exact fun _ ↦ le_rfl
    | some l => nofun
  by_cases hupper : Upper keyCompare last (h.key x)
  · rw [if_pos (.inr hupper), Option.filter_some, if_pos (by simpa using hupper)]
    rfl
  · have hnot : ¬ (last.isNone ∨ compareBound keyCompare (h.key x) last ≤ 0) :=
      not_or.mpr ⟨mt hnone hupper, hupper⟩
    rw [if_neg hnot, Option.filter_some, if_neg (by simpa using hupper)]
    rfl

omit [DecidableEq τ] in
theorem checkFirst_of_neg {x : ι} (hneg : keyCompare (h.key x) first < 0) :
    (checkFirst keyCompare fuel h btree x first last).result =
      findNextLoop fuel (checkRange keyCompare h first last) fuel h x := by
  rw [checkFirst, if_neg hneg.ne, if_neg hneg.not_gt]
  exact result_balancedBTreeFindNextInRange x true

section Least

variable (horders : Orders keyCompare suits rank) (hinv : Holds keyCompare h btree items t)
  (hsuits : ∀ a ∈ items, suits btree (h.key a)) (hfirst : suits btree first)
  (hlast : ∀ k ∈ last, suits btree k) (hfuel : items.length ≤ fuel) {x : ι} {after : List ι}
  (hsplit : inorder t = before ++ x :: after) {locked : Bool}

include hinv hsplit in
omit [DecidableEq ι] [DecidableEq τ] in
theorem mem_items_iff (a : ι) : a ∈ items ↔ a ∈ before ∨ a = x ∨ a ∈ after := by
  rw [← hinv.perm.mem_iff, hsplit, List.mem_append, List.mem_cons]

include horders hinv hsuits hsplit in
omit [DecidableEq ι] [DecidableEq τ] in
theorem ranks_around : (∀ y ∈ before, rank (h.key y) < rank (h.key x)) ∧
    (∀ y ∈ after, rank (h.key x) < rank (h.key y)) ∧
    before.Pairwise fun a b ↦ rank (h.key a) < rank (h.key b) := by
  have hranks := ranks_pairwise horders hinv hsuits
  rw [hsplit] at hranks
  obtain ⟨hbefore, hafter, hcross⟩ := List.pairwise_append.mp hranks
  exact ⟨fun y hy ↦ hcross y hy x List.mem_cons_self, (List.pairwise_cons.mp hafter).1, hbefore⟩

include horders hsuits hfirst hlast in
omit [DecidableEq ι] [DecidableEq τ] in
theorem upper_iff_of_rank_eq {a : ι} (ha : a ∈ items) (hrank : rank (h.key a) = rank first) :
    Upper keyCompare last (h.key a) ↔ Upper keyCompare last first :=
  ⟨upper_of_le horders hlast hfirst (hsuits a ha) hrank.ge,
    upper_of_le horders hlast (hsuits a ha) hfirst hrank.le⟩

include horders hinv hsuits hfirst hlast hfuel hsplit in
omit [DecidableEq τ] in
/-- The descent ends above the beginning of the range, on the right of an item with that very key
if there is one. -/
theorem scansExactly_iff_of_above (hx : rank first < rank (h.key x))
    (hbefore : ∀ y ∈ before, rank (h.key y) ≤ rank first)
    (hright : ∀ y ∈ before.getLast?, h.right y ≠ none)
    (hleast : (balancedBTreeFindLeastInRange keyCompare fuel h btree locked first last).result =
      some (h.visit (cleared h.visited t),
        (some x).filter fun b ↦ Upper keyCompare last (h.key b))) :
    ScansExactly keyCompare fuel btree locked first last h items ↔
      ∀ a ∈ items, keyCompare (h.key a) first = 0 →
        (h.right a = none ↔ Upper keyCompare last first) := by
  have hmem := mem_items_iff hinv hsplit
  obtain ⟨hbx, hxa, hpair⟩ := ranks_around horders hinv hsuits hsplit
  have hxi : x ∈ items := (hmem x).mpr (.inr (.inl rfl))
  -- an item with the key is the last one before the end of the descent
  have hequal : ∀ a ∈ items, keyCompare (h.key a) first = 0 → h.right a ≠ none := by
    intro a ha hzero
    have hrank := (horders.zero_iff (hsuits a ha) hfirst).mp hzero
    have hab : a ∈ before := by
      rcases (hmem a).mp ha with hab | rfl | haa
      · exact hab
      · exact absurd hrank hx.ne'
      · exact absurd hrank (hx.trans (hxa a haa)).ne'
    refine hright a ?_
    obtain ⟨ys, zs, rfl⟩ := List.append_of_mem hab
    cases zs with
    | nil => simp
    | cons z zs =>
        have hlt := (List.pairwise_cons.mp (List.pairwise_append.mp hpair).2.1).1 z (by simp)
        exact absurd (hbefore z (by simp)) (not_le.mpr (hrank ▸ hlt))
  by_cases hslip : ∃ a ∈ items, keyCompare (h.key a) first = 0 ∧ Upper keyCompare last first
  · obtain ⟨a, ha, hzero, hupper⟩ := hslip
    have hrank := (horders.zero_iff (hsuits a ha) hfirst).mp hzero
    refine iff_of_false ?_ fun hall ↦ hequal a ha hzero ((hall a ha hzero).mpr hupper)
    refine not_scansExactly hleast ha hzero.ge
      ((upper_iff_of_rank_eq horders hsuits hfirst hlast ha hrank).mpr hupper) ?_ ?_
    · intro heq
      obtain ⟨hxa', -⟩ := Option.filter_eq_some_iff.mp heq
      obtain rfl := Option.some.inj hxa'
      exact hx.ne' hrank
    · intro b hb hlt
      obtain ⟨hxb, -⟩ := Option.filter_eq_some_iff.mp hb
      obtain rfl := Option.some.inj hxb
      have hlt := (horders.neg_iff btree _ _ (hsuits x hxi) (hsuits a ha)).mp hlt
      exact lt_asymm hx (hrank ▸ hlt)
  · push Not at hslip
    -- otherwise the items before the end of the descent are below the range, or it is empty
    have hbelow : ∀ y ∈ before, 0 ≤ keyCompare (h.key y) first →
        keyCompare (h.key y) first = 0 := by
      intro y hy hge
      have hyi := (hmem y).mpr (.inl hy)
      have hle := mt (horders.pos_iff btree _ _ (hsuits y hyi) hfirst).mp
        (not_lt.mpr (hbefore y hy))
      omega
    refine iff_of_true ?_ fun a ha hzero ↦
      iff_of_false (hequal a ha hzero) (hslip a ha hzero)
    refine scansExactly_of_least horders hinv hsuits hlast hfuel hsplit ?_ ?_ hleast ?_
    · intro y hy hge hupper
      have hyi := (hmem y).mpr (.inl hy)
      have hzero := hbelow y hy hge
      have hrank := (horders.zero_iff (hsuits y hyi) hfirst).mp hzero
      exact hslip y hyi hzero
        ((upper_iff_of_rank_eq horders hsuits hfirst hlast hyi hrank).mp hupper)
    · intro y hy
      have hyi := (hmem y).mpr (.inr (List.mem_cons.mp hy))
      have hlt : rank first < rank (h.key y) := by
        rcases List.mem_cons.mp hy with rfl | hy
        · exact hx
        · exact hx.trans (hxa y hy)
      exact ((horders.pos_iff btree _ _ (hsuits y hyi) hfirst).mpr hlt).le
    · rintro b after' hb hupper
      obtain ⟨rfl, rfl⟩ := List.cons.inj hb
      have hend := upper_of_le horders hlast hfirst (hsuits x hxi) hx.le hupper
      refine ⟨hinv.represents.visit _, hsplit, ?_, ?_, ?_⟩
      · intro y hy
        have hyi := (hmem y).mpr (.inl hy)
        refine .inr (checkRange_of_lt (not_le.mp fun hge ↦ ?_))
        exact hslip y hyi (hbelow y hy hge) hend
      · intro y hy
        have hyt : y ∈ inorder t := by simp [hsplit, hy]
        simp [Heap.visit, cleared, hyt]
      · intro y hy
        have hyi := (hmem y).mpr (.inr (.inr hy))
        exact ((horders.pos_iff btree _ _ (hsuits y hyi) hfirst).mpr (hx.trans (hxa y hy))).le

include horders hinv hsuits hfirst hlast hfuel hsplit in
omit [DecidableEq τ] in
/-- The descent ends at the last item that is not above the beginning of the range. -/
theorem scansExactly_iff_of_not_above (hx : rank (h.key x) ≤ rank first)
    (hafter : ∀ y ∈ after, rank first < rank (h.key y)) (hright : h.right x = none)
    (hleast : (balancedBTreeFindLeastInRange keyCompare fuel h btree locked first last).result =
      (checkFirst keyCompare fuel (h.visit (cleared h.visited t)) btree x first last).result) :
    ScansExactly keyCompare fuel btree locked first last h items ↔
      ∀ a ∈ items, keyCompare (h.key a) first = 0 →
        (h.right a = none ↔ Upper keyCompare last first) := by
  have hmem := mem_items_iff hinv hsplit
  obtain ⟨hbx, -, -⟩ := ranks_around horders hinv hsuits hsplit
  have hxi : x ∈ items := (hmem x).mpr (.inr (.inl rfl))
  have hsize : t.numNodes ≤ fuel := by
    rw [hinv.numNodes_eq]
    exact hfuel
  have hbelow : ∀ y ∈ before, keyCompare (h.key y) first < 0 := fun y hy ↦
    (horders.neg_iff btree _ _ (hsuits y ((hmem y).mpr (.inl hy))) hfirst).mpr
      ((hbx y hy).trans_le hx)
  have habove : ∀ y ∈ after, 0 ≤ keyCompare (h.key y) first := fun y hy ↦
    ((horders.pos_iff btree _ _ (hsuits y ((hmem y).mpr (.inr (.inr hy)))) hfirst).mpr
      (hafter y hy)).le
  have hscan : Scanning keyCompare first last (h.visit (cleared h.visited t)) btree before x
      after t := by
    refine ⟨hinv.represents.visit _, hsplit, ?_, ?_, habove⟩
    · exact fun y hy ↦ .inr (checkRange_of_lt (hbelow y hy))
    · intro y hy
      have hyt : y ∈ inorder t := by simp [hsplit, hy]
      simp [Heap.visit, cleared, hyt]
  -- only the end of the descent may have the key
  have hequal : ∀ a ∈ items, keyCompare (h.key a) first = 0 → a = x := by
    intro a ha hzero
    rcases (hmem a).mp ha with hab | rfl | haa
    · exact absurd hzero (hbelow a hab).ne
    · rfl
    · have hrank := (horders.zero_iff (hsuits a ha) hfirst).mp hzero
      exact absurd hrank (hafter a haa).ne'
  rcases hx.lt_or_eq with hlt | hrank
  · have hneg := (horders.neg_iff btree _ _ (hsuits x hxi) hfirst).mpr hlt
    have hneg' : keyCompare ((h.visit (cleared h.visited t)).key x) first < 0 := hneg
    refine iff_of_true ?_ ?_
    · obtain ⟨v, hnext, hscan'⟩ := hscan.findNext hsize
      have hsplit' : inorder t = (before ++ [x]) ++ after := by simp [hsplit]
      refine scansExactly_of_least horders hinv hsuits hlast hfuel hsplit' ?_ habove
        (hleast.trans ((checkFirst_of_neg hneg').trans hnext))
        fun b after' hb _ ↦ hscan' b after' hb
      intro y hy hge
      rcases List.mem_append.mp hy with hy | hy
      · exact absurd hge (not_le.mpr (hbelow y hy))
      · obtain rfl := List.mem_singleton.mp hy
        exact absurd hge (not_le.mpr hneg)
    · intro a ha hzero
      obtain rfl := hequal a ha hzero
      exact absurd hzero hneg.ne
  · have hzero := (horders.zero_iff (hsuits x hxi) hfirst).mpr hrank
    have hupper := upper_iff_of_rank_eq horders hsuits hfirst hlast hxi hrank
    have hzero' : keyCompare ((h.visit (cleared h.visited t)).key x) first = 0 := hzero
    rw [checkFirst_of_zero hzero'] at hleast
    by_cases hend : Upper keyCompare last first
    · have hkeep : (some x).filter (fun b ↦ Upper keyCompare last (h.key b)) = some x := by
        rw [Option.filter_some, if_pos (by simpa using hupper.mpr hend)]
      refine iff_of_true ?_ ?_
      · rw [← hkeep] at hleast
        refine scansExactly_of_least horders hinv hsuits hlast hfuel hsplit ?_ ?_ hleast ?_
        · exact fun y hy hge ↦ absurd hge (not_le.mpr (hbelow y hy))
        · intro y hy
          rcases List.mem_cons.mp hy with rfl | hy
          · exact hzero.ge
          · exact habove y hy
        · rintro b after' hb -
          obtain ⟨rfl, rfl⟩ := List.cons.inj hb
          exact hscan
      · intro a ha hzero'
        obtain rfl := hequal a ha hzero'
        exact iff_of_true hright hend
    · -- an empty range, in which the item is found all the same
      refine iff_of_false ?_ fun hall ↦ hend ((hall x hxi hzero).mp hright)
      rintro ⟨h', returned, hrun, -, hreturned⟩
      simp only [scanRange, result_bind, hleast, Option.bind_some] at hrun
      obtain ⟨rest, rfl⟩ : ∃ rest, returned = x :: rest := rangeFrom_some hrun
      exact hend (hupper.mp ((hreturned x).mp List.mem_cons_self).2.2)

end Least

omit [DecidableEq τ] in
/-- A scan is exact unless an item has the very key that the range begins with and either something
on its right, or the range is empty. -/
theorem scansExactly_iff (horders : Orders keyCompare suits rank)
    (hinv : Holds keyCompare h btree items t) (hsuits : ∀ a ∈ items, suits btree (h.key a))
    (hfirst : suits btree first) (hlast : ∀ k ∈ last, suits btree k)
    (hfuel : items.length ≤ fuel) (locked : Bool) :
    ScansExactly keyCompare fuel btree locked first last h items ↔
      ∀ a ∈ items, keyCompare (h.key a) first = 0 →
        (h.right a = none ↔ Upper keyCompare last first) := by
  have hsize : t.numNodes ≤ fuel := by
    rw [hinv.numNodes_eq]
    exact hfuel
  have hmem : ∀ a, a ∈ inorder t ↔ a ∈ items := fun a ↦ hinv.perm.mem_iff
  by_cases hnil : t = .nil
  · -- of the empty tree there is nothing to return
    subst hnil
    have hroot : h.root btree = none := hinv.represents.links
    have hnone : ∀ a, a ∉ items := fun a ha ↦ nomatch (hmem a).mpr ha
    refine iff_of_true ?_ fun a ha ↦ absurd ha (hnone a)
    have hsplit : inorder .nil = ([] : List ι) ++ [] := rfl
    refine scansExactly_of_least horders hinv hsuits hlast hfuel (v := h.visited) hsplit nofun nofun
      ?_ nofun
    have hempty : balancedBTreeUnvisit fuel h none = some h := by
      cases fuel <;> rfl
    have hparent : findParentLoop keyCompare h first fuel none none = some none := by
      cases fuel <;> rfl
    simp [balancedBTreeFindLeastInRange, result_bind, hroot, hempty, balancedBTreeFindParent,
      hparent, Heap.visit]
  · have hranks := ranks_pairwise horders hinv hsuits
    have hitems : ∀ a ∈ inorder t, suits btree (h.key a) := fun a ha ↦ hsuits a ((hmem a).mp ha)
    have hcut : Cut (probe keyCompare (h.visit (cleared h.visited t)) first) (inorder t) :=
      Cut.of_rank hranks (fun a ha ↦ horders.neg_iff btree _ _ hfirst (hitems a ha))
        fun a ha ↦ horders.pos_iff btree _ _ hfirst (hitems a ha)
    obtain ⟨x, before, after, hparent, hsplit, hcases⟩ :=
      @findParentLoop_cases _ _ _ _ _ _ none _ _ _ (hinv.represents.links.visit _) hcut hnil _ hsize
    have hleast : (balancedBTreeFindLeastInRange keyCompare fuel h btree locked first last).result =
        _ := result_balancedBTreeFindLeastInRange hinv.represents hsize hparent locked
    have hnot : ∀ y ∈ inorder t, ¬ probe keyCompare (h.visit (cleared h.visited t)) first y < 0 →
        rank (h.key y) ≤ rank first := fun y hy hge ↦
      not_lt.mp (mt (horders.neg_iff btree _ _ hfirst (hitems y hy)).mpr hge)
    have hxt : x ∈ inorder t := by simp [hsplit]
    rcases hcases with ⟨hx, hbefore, hright⟩ | ⟨hx, hafter, hright⟩
    · have hlt := (horders.neg_iff btree _ _ hfirst (hitems x hxt)).mp hx
      refine scansExactly_iff_of_above horders hinv hsuits hfirst hlast hfuel hsplit hlt ?_ hright
        (hleast.trans (checkFirst_of_pos ?_))
      · exact fun y hy ↦ hnot y (by simp [hsplit, hy]) (hbefore y hy)
      · exact (horders.pos_iff btree _ _ (hitems x hxt) hfirst).mpr hlt
    · refine scansExactly_iff_of_not_above horders hinv hsuits hfirst hlast hfuel hsplit
        (hnot x hxt hx) ?_ hright hleast
      intro y hy
      exact (horders.neg_iff btree _ _ hfirst (hitems y (by simp [hsplit, hy]))).mp (hafter y hy)

end Exactness

theorem orders_keyCompareInt :
    Orders keyCompareInt (fun (_ : Unit) k ↦ 0 ≤ k ∧ k < 2 ^ 31) id where
  neg_iff _ _ _ hk hk' := keyCompareInt_neg_iff hk.1 hk.2 hk'.1 hk'.2
  pos_iff _ _ _ hk hk' := keyCompareInt_pos_iff hk.1 hk.2 hk'.1 hk'.2

theorem scansExactly_iff_twoItems :
    ScansExactly keyCompareInt 2 () false 7 none twoItems [5, 7] ↔
      ∀ a ∈ [5, 7], keyCompareInt (twoItems.key a) 7 = 0 →
        (twoItems.right a = none ↔ Upper keyCompareInt none 7) := by
  refine scansExactly_iff orders_keyCompareInt holds_twoItems ?_ (by norm_num)
    (by simp) (by simp) false
  simp [twoItems]

/-- From 5 on, the item 5 is not found, because the item 7 is on its right. -/
theorem equal_key_passed_over :
    Holds keyCompareInt twoItems () [5, 7] (.node 5 .nil (.node 7 .nil .nil)) ∧
      ∀ fuel, ¬ ScansExactly keyCompareInt fuel () false 5 none twoItems [5, 7] := by
  refine ⟨holds_twoItems, ?_⟩
  intro fuel
  match fuel with
  | 0 | 1 => exact fun ⟨h', returned, hrun, _⟩ ↦ nomatch hrun
  | fuel + 2 =>
      have hparent : balancedBTreeFindParent keyCompareInt (twoItems.visit (cleared
          twoItems.visited (.node 5 .nil (.node 7 .nil .nil)))) (fuel + 2) () 5 =
            some (some 7) := by
        simp [balancedBTreeFindParent, findParentLoop, twoItems, Heap.visit, keyCompareInt,
          clampSign]
      have hleast : (balancedBTreeFindLeastInRange keyCompareInt (fuel + 2) twoItems () false 5
          none).result = _ := result_balancedBTreeFindLeastInRange holds_twoItems.represents
            (Nat.le_add_left 2 fuel) hparent false
      rw [checkFirst_of_pos (by decide)] at hleast
      refine not_scansExactly (a := 5) hleast (by simp) (by decide) (by decide) (by decide) ?_
      rintro b ⟨⟩
      decide

end Locks

end HavokMud.BTree
