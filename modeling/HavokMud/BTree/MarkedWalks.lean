import HavokMud.BTree.Iteration
import HavokMud.SearchTree.Marks

/-!
# One step of a walk that was not begun

A caller may go on from any item with `BalancedBTreeFindNext`, whatever the walks before have
counted.  The counts of other items stay zero or not zero, and what the step finds depends on
which they are.
-/

namespace HavokMud.BTree

open BinaryTree SearchTree

variable {ι κ τ : Type} [DecidableEq ι] {h : Heap ι κ τ} {t : BinaryTree ι} {parent p : Option ι}
  {a c : ι}

/-- Any item that was not visited ends the walk. -/
abbrev checkAny (item : ι) : Option (Option ι) :=
  some (some item)

omit [DecidableEq ι] in
theorem head?_or_node (l r : BinaryTree ι) (parent : Option ι) :
    (inorder (.node c l r)).head?.or parent = (inorder l).head?.or (some c) := by
  cases hl : inorder l <;> simp [hl]

theorem counted_of_ne (v : ι → ℕ) {x : ι} (hx : x ≠ a) : counted v a x = v x :=
  Function.update_of_ne hx _ _

theorem counted_eq_zero_iff {v : ι → ℕ} {x : ι} : counted v a x = 0 ↔ x ≠ a ∧ v x = 0 := by
  by_cases hx : x = a
  · subst hx
    simp [counted]
  · simp [counted, hx]

/-- The walk through a subtree comes to a stop in it, or out of it to the parent with its root
visited. -/
def Crosses (h : Heap ι κ τ) (parent p : Option ι) (t : BinaryTree ι) : Prop :=
  ∀ v, ∃ v' n, n ≤ 2 * t.numNodes ∧ (∀ x, v' x = 0 ↔ v x = 0) ∧
    (firstMet v t = none → ∀ q, p = some q → v' q ≠ 0) ∧
    ∀ fuel turns, t.numNodes ≤ fuel →
      walkAt fuel checkAny (turns + n) (h.visit v) ((inorder t).head?.or parent) =
        walkAt fuel checkAny turns (h.visit v') ((firstMet v t).or parent)

/-- Where the step from a visited item goes. -/
def nextMet (v : ι → ℕ) (r : BinaryTree ι) : Option ι :=
  if RootVisited v r then none else firstMet v r

omit [DecidableEq ι] in
theorem mem_of_nextMet {v : ι → ℕ} {r : BinaryTree ι} {x : ι} (hx : nextMet v r = some x) :
    x ∈ inorder r ∧ v x = 0 := by
  rw [nextMet] at hx
  split_ifs at hx
  exact mem_of_firstMet hx

omit [DecidableEq ι] in
theorem nextMet_congr {v w : ι → ℕ} {r : BinaryTree ι}
    (hsame : ∀ x ∈ inorder r, w x = 0 ↔ v x = 0) : nextMet w r = nextMet v r := by
  simp only [nextMet, rootVisited_congr hsame, firstMet_congr hsame]

/-- From an item the walk goes through the right side, if its root was not visited, and up. -/
theorem walk_on {r : BinaryTree ι} (hparent : h.parent c = parent)
    (hr : Subtree h (some c) (h.right c) r) (hc : c ∉ inorder r)
    (hcrosses : Crosses h (some c) (h.right c) r) (v : ι → ℕ) :
    ∃ v' n, n ≤ 2 * r.numNodes + 2 ∧ (∀ x, v' x = 0 ↔ counted v c x = 0) ∧
      ∀ fuel turns, r.numNodes ≤ fuel →
        findNextLoop fuel checkAny (turns + n) (h.visit v) c =
          walkAt fuel checkAny turns (h.visit v') ((nextMet v r).or parent) := by
  have hcounted : ∀ x ∈ inorder r, counted v c x = v x := fun x hx ↦
    counted_of_ne v (ne_of_mem_of_not_mem hx hc)
  by_cases hup : ∀ q, h.right c = some q → 0 < counted v c q
  · -- nothing on the right, or a right side whose root was visited
    have hnext : nextMet v r = none := by
      unfold nextMet
      cases r with
      | nil => rfl
      | node q _ _ =>
          have hq := hup q hr.1
          rw [hcounted q (by simp)] at hq
          exact if_pos hq
    refine ⟨counted v c, 1, by omega, fun x ↦ Iff.rfl, fun fuel turns _ ↦ ?_⟩
    rw [findNextLoop_succ, visitNext_up hup, hparent, hnext]
    rfl
  · push Not at hup
    obtain ⟨q, hq, hunvisited⟩ := hup
    have hunvisited := Nat.le_zero.mp hunvisited
    obtain ⟨z, hhead, hdown⟩ := visitNext_down hr hq hunvisited
    obtain ⟨w, n, hn, hsame, hroot, hcross⟩ := hcrosses (counted v c)
    have hroot_iff : RootVisited v r ↔ False := by
      have hr' := hr
      rw [hq] at hr'
      obtain ⟨_, _, rfl⟩ := hr'.some_node
      rw [hcounted q (by simp)] at hunvisited
      simp [RootVisited, hunvisited]
    have hnext : firstMet (counted v c) r = nextMet v r := by
      rw [nextMet, if_neg (fun hvisited ↦ hroot_iff.mp hvisited)]
      exact firstMet_congr fun x hx ↦ by rw [hcounted x hx]
    rw [hnext] at hroot hcross
    have hrun : ∀ fuel turns, r.numNodes ≤ fuel →
        findNextLoop fuel checkAny (turns + (n + 1)) (h.visit v) c =
          walkAt fuel checkAny turns (h.visit w) ((nextMet v r).or (some c)) := by
      intro fuel turns hfuel
      rw [← Nat.add_assoc, findNextLoop_succ, hdown fuel hfuel, ← hcross fuel turns hfuel, hhead]
      rfl
    cases hmet : nextMet v r with
    | some x =>
        rw [hmet] at hrun
        exact ⟨w, n + 1, by omega, hsame, hrun⟩
    | none =>
        -- back at the item, which the walk then leaves
        rw [hmet] at hroot hrun
        have hbehind : Behind checkAny w c := by
          refine .inl (Nat.pos_of_ne_zero ?_)
          rw [Ne, hsame]
          exact (counted_pos v c).ne'
        refine ⟨counted w c, n + 2, by omega, fun x ↦ ?_, fun fuel turns hfuel ↦ ?_⟩
        · rw [counted_eq_zero_iff, hsame, counted_eq_zero_iff]
          tauto
        · have hright : ∀ q, h.right c = some q → 0 < w q := fun q hq ↦
            Nat.pos_of_ne_zero (hroot rfl q hq)
          have hback := hrun fuel (turns + 1) hfuel
          rw [Nat.add_assoc, Nat.add_comm 1] at hback
          rw [hback]
          exact walk_out hparent hright hbehind fuel turns

theorem walkAt_visited {v : ι → ℕ} (hvisited : v c ≠ 0) (fuel turns : ℕ) :
    walkAt fuel checkAny turns (h.visit v) (some c) =
      findNextLoop fuel checkAny turns (h.visit v) c := by
  have hcount : (h.visit v).visited c ≠ 0 := hvisited
  rw [walkAt, if_neg hcount]

theorem crosses_subtree (hsub : Subtree h parent p t) (hnodup : (inorder t).Nodup) :
    Crosses h parent p t := by
  induction t generalizing parent p with
  | nil =>
      intro v
      refine ⟨v, 0, le_rfl, fun _ ↦ Iff.rfl, fun _ q hq ↦ ?_, fun _ _ _ ↦ rfl⟩
      rw [subtree_nil.mp hsub] at hq
      cases hq
  | node c l r ihl ihr =>
      obtain ⟨rfl, hparent, hl, hr⟩ := hsub
      rw [inorder_node] at hnodup
      obtain ⟨hnodupl, hnodupr, -⟩ := List.nodup_append.mp hnodup
      obtain ⟨hcr, hnodupr⟩ := List.nodup_cons.mp hnodupr
      intro v
      obtain ⟨v₁, n₁, hn₁, hsame₁, -, hcross₁⟩ := ihl hl hnodupl v
      simp only [BinaryTree.numNodes, head?_or_node]
      cases hmetl : firstMet v l with
      | some x =>
          have hmet : firstMet v (.node c l r) = some x := by rw [firstMet, hmetl]; rfl
          rw [hmetl] at hcross₁
          refine ⟨v₁, n₁, by omega, hsame₁, fun hnone ↦ ?_, fun fuel turns hfuel ↦ ?_⟩
          · rw [hmet] at hnone
            cases hnone
          · rw [hcross₁ fuel turns (by omega), hmet]
            rfl
      | none =>
          rw [hmetl, Option.none_or] at hcross₁
          by_cases hunvisited : v c = 0
          · have hmet : firstMet v (.node c l r) = some c := by
              rw [firstMet, hmetl, Option.none_or, if_pos hunvisited]
            refine ⟨v₁, n₁, by omega, hsame₁, fun hnone ↦ ?_, fun fuel turns hfuel ↦ ?_⟩
            · rw [hmet] at hnone
              cases hnone
            · rw [hcross₁ fuel turns (by omega), hmet]
              rfl
          · have hvisited : v₁ c ≠ 0 := mt (hsame₁ c).mp hunvisited
            have hmet : firstMet v (.node c l r) = nextMet v r := by
              rw [firstMet, hmetl, Option.none_or, if_neg hunvisited, nextMet]
            obtain ⟨v₂, n₂, hn₂, hsame₂, hrun⟩ := walk_on hparent hr hcr (ihr hr hnodupr) v₁
            rw [nextMet_congr fun x _ ↦ hsame₁ x] at hrun
            refine ⟨v₂, n₂ + n₁, by omega, fun x ↦ ?_, ?_, fun fuel turns hfuel ↦ ?_⟩
            · rw [hsame₂, counted_eq_zero_iff, hsame₁]
              refine and_iff_right_of_imp ?_
              rintro hzero rfl
              exact hunvisited hzero
            · rintro - q ⟨⟩
              rw [Ne, hsame₂]
              exact (counted_pos v₁ c).ne'
            · rw [← Nat.add_assoc, hmet]
              calc
                walkAt fuel checkAny (turns + n₂ + n₁) (h.visit v)
                    ((inorder l).head?.or (some c)) =
                    walkAt fuel checkAny (turns + n₂) (h.visit v₁) (some c) :=
                  hcross₁ fuel (turns + n₂) (by omega)
                _ = findNextLoop fuel checkAny (turns + n₂) (h.visit v₁) c :=
                  walkAt_visited hvisited _ _
                _ = walkAt fuel checkAny turns (h.visit v₂) ((nextMet v r).or parent) :=
                  hrun fuel turns (by omega)

/-- What the step from the item that a search finds does before it leaves a subtree. -/
structure Steps (probe : ι → ℤ) (v v' : ι → ℕ) (a : ι) (p next : Option ι) (t : BinaryTree ι) :
    Prop where
  visited : ∀ x, v' x = 0 ↔ counted v a x = 0
  contested : (∃ x, next = some x ∧ probe x = 0) ↔ Contested probe v t
  unvisited : ∀ x, next = some x → v' x = 0
  root : next = none → ∀ q, p = some q → v' q ≠ 0

namespace Steps

variable {probe : ι → ℤ} {v v' : ι → ℕ} {p' : Option ι} {s : BinaryTree ι} {x : ι} {next : Option ι}

/-- A step that ends in a side of a tree. -/
theorem within (hsteps : Steps probe v v' a p (some x) s)
    (hside : Contested probe v t ↔ Contested probe v s) : Steps probe v v' a p' (some x) t :=
  ⟨hsteps.visited, hsteps.contested.trans hside.symm, hsteps.unvisited, by simp⟩

/-- A step that comes out of a side of a tree finds no zero in it. -/
theorem not_contested (hsteps : Steps probe v v' a p none s)
    (hside : Contested probe v t ↔ Contested probe v s) : ¬ Contested probe v t := by
  rw [hside, ← hsteps.contested]
  simp

/-- A step that comes out of a side and ends at the root. -/
theorem atRoot (hsteps : Steps probe v v' a p none s)
    (hside : Contested probe v t ↔ Contested probe v s) (hunvisited : v' c = 0)
    (hc : probe c ≠ 0) : Steps probe v v' a p' (some c) t := by
  refine ⟨hsteps.visited, iff_of_false ?_ (hsteps.not_contested hside), ?_, by simp⟩
  · rintro ⟨x, ⟨⟩, hx⟩
    exact hc hx
  · rintro x ⟨⟩
    exact hunvisited

/-- To count an item again that was visited changes nothing. -/
theorem counted_eq_zero (hsteps : Steps probe v v' a p next s) (hvisited : v' c ≠ 0) (x : ι) :
    counted v' c x = 0 ↔ counted v a x = 0 := by
  rw [counted_eq_zero_iff, hsteps.visited]
  refine and_iff_right_of_imp ?_
  rintro hx rfl
  exact hvisited ((hsteps.visited x).mpr hx)

end Steps

/-- From the item that a search finds the walk comes to another zero of the probe exactly if the
search is contested: all others that it may come to are outside of the zeros. -/
theorem walk_found {probe : ι → ℤ} (hsub : Subtree h parent p t) (hnodup : (inorder t).Nodup)
    (hfalling : Falling probe (inorder t)) (hfind : find probe t = some a) (v : ι → ℕ) :
    ∃ v' n next, n ≤ 2 * t.numNodes ∧ Steps probe v v' a p next t ∧
      ∀ fuel turns, t.numNodes ≤ fuel →
        findNextLoop fuel checkAny (turns + n) (h.visit v) a =
          walkAt fuel checkAny turns (h.visit v') (next.or parent) := by
  induction t generalizing parent p with
  | nil => cases hfind
  | node c l r ihl ihr =>
      obtain ⟨rfl, hparent, hl, hr⟩ := hsub
      obtain ⟨hfallingl, hfallingr, -, hright⟩ := hfalling.node
      rw [inorder_node] at hnodup
      obtain ⟨hnodupl, hnodupr, -⟩ := List.nodup_append.mp hnodup
      obtain ⟨hcr, hnodupr⟩ := List.nodup_cons.mp hnodupr
      have hcrosses := crosses_subtree hr hnodupr
      unfold find at hfind
      simp only [BinaryTree.numNodes]
      split_ifs at hfind with hzero hneg
      · -- the root is found
        obtain rfl := Option.some.inj hfind
        obtain ⟨v', n, hn, hsame, hrun⟩ := walk_on hparent hr hcr hcrosses v
        have hle : ∀ x ∈ inorder r, probe x ≤ 0 := by
          have hcons := (List.pairwise_append.mp hfalling).2.1
          exact fun x hx ↦ ((List.pairwise_cons.mp hcons).1 x hx).1 hzero.le
        have hside : rightOfFound probe (.node c l r) = r := if_pos hzero
        refine ⟨v', n, nextMet v r, by omega, ⟨hsame, ?_, fun x hx ↦ ?_, ?_⟩,
          fun fuel turns hfuel ↦ hrun fuel turns (by omega)⟩
        · rw [Contested, hside, ← hfallingr.firstMet_zero_iff hle]
          by_cases hroot : RootVisited v r
          · simp [nextMet, hroot]
          · simp [nextMet, hroot]
        · obtain ⟨hmem, hunvisited⟩ := mem_of_nextMet hx
          rw [hsame, counted_of_ne v (ne_of_mem_of_not_mem hmem hcr)]
          exact hunvisited
        · rintro - q ⟨⟩
          rw [Ne, hsame]
          exact (counted_pos v c).ne'
      · -- on the left of the root, where nothing from the root on is a zero
        obtain ⟨v₁, n₁, next, hn₁, hsteps, hrun₁⟩ := ihl hl hnodupl hfallingl hfind
        have hside : Contested probe v (.node c l r) ↔ Contested probe v l := by
          simp only [Contested, rightOfFound, if_neg hzero, if_pos hneg]
        cases next with
        | some x =>
            exact ⟨v₁, n₁, some x, by omega, hsteps.within hside,
              fun fuel turns hfuel ↦ hrun₁ fuel turns (by omega)⟩
        | none =>
            have hcontested := hsteps.not_contested hside
            rw [Option.none_or] at hrun₁
            by_cases hunvisited : v₁ c = 0
            · exact ⟨v₁, n₁, some c, by omega, hsteps.atRoot hside hunvisited hzero,
                fun fuel turns hfuel ↦ hrun₁ fuel turns (by omega)⟩
            · obtain ⟨v₂, n₂, hn₂, hsame₂, hrun₂⟩ := walk_on hparent hr hcr hcrosses v₁
              refine ⟨v₂, n₂ + n₁, nextMet v₁ r, by omega, ⟨fun x ↦ ?_,
                iff_of_false ?_ hcontested, fun x hx ↦ ?_, ?_⟩, fun fuel turns hfuel ↦ ?_⟩
              · exact (hsame₂ x).trans (hsteps.counted_eq_zero hunvisited x)
              · rintro ⟨x, hx, hxzero⟩
                exact (hright x (mem_of_nextMet hx).1 hneg).ne hxzero
              · obtain ⟨hmem, hx⟩ := mem_of_nextMet hx
                rw [hsame₂, counted_of_ne v₁ (ne_of_mem_of_not_mem hmem hcr)]
                exact hx
              · rintro - q ⟨⟩
                rw [Ne, hsame₂]
                exact (counted_pos v₁ c).ne'
              · rw [← Nat.add_assoc]
                calc
                  findNextLoop fuel checkAny (turns + n₂ + n₁) (h.visit v) a =
                      walkAt fuel checkAny (turns + n₂) (h.visit v₁) (some c) :=
                    hrun₁ fuel (turns + n₂) (by omega)
                  _ = findNextLoop fuel checkAny (turns + n₂) (h.visit v₁) c :=
                    walkAt_visited hunvisited _ _
                  _ = walkAt fuel checkAny turns (h.visit v₂) ((nextMet v₁ r).or parent) :=
                    hrun₂ fuel turns (by omega)
      · -- on the right of the root, out of which the walk comes to the root
        obtain ⟨v₁, n₁, next, hn₁, hsteps, hrun₁⟩ := ihr hr hnodupr hfallingr hfind
        have hside : Contested probe v (.node c l r) ↔ Contested probe v r := by
          simp only [Contested, rightOfFound, if_neg hzero, if_neg hneg]
        cases next with
        | some x =>
            exact ⟨v₁, n₁, some x, by omega, hsteps.within hside,
              fun fuel turns hfuel ↦ hrun₁ fuel turns (by omega)⟩
        | none =>
            have hcontested := hsteps.not_contested hside
            rw [Option.none_or] at hrun₁
            by_cases hunvisited : v₁ c = 0
            · exact ⟨v₁, n₁, some c, by omega, hsteps.atRoot hside hunvisited hzero,
                fun fuel turns hfuel ↦ hrun₁ fuel turns (by omega)⟩
            · refine ⟨counted v₁ c, 1 + n₁, none, by omega, ⟨hsteps.counted_eq_zero hunvisited,
                iff_of_false (by simp) hcontested, by simp, ?_⟩, fun fuel turns hfuel ↦ ?_⟩
              · rintro - q ⟨⟩
                exact (counted_pos v₁ c).ne'
              · have hright : ∀ q, h.right c = some q → 0 < v₁ q := fun q hq ↦
                  Nat.pos_of_ne_zero (hsteps.root rfl q hq)
                have hbehind : Behind checkAny v₁ c := .inl (Nat.pos_of_ne_zero hunvisited)
                rw [← Nat.add_assoc, Option.none_or]
                calc
                  findNextLoop fuel checkAny (turns + 1 + n₁) (h.visit v) a =
                      walkAt fuel checkAny (turns + 1) (h.visit v₁) (some c) :=
                    hrun₁ fuel (turns + 1) (by omega)
                  _ = walkAt fuel checkAny turns (h.visit (counted v₁ c)) parent :=
                    walk_out hparent hright hbehind fuel turns

/-- `BalancedBTreeFindNext` from the item that a search found. -/
theorem findNextLoop_found {btree : τ} {probe : ι → ℤ} (hrep : Represents h btree t)
    (hfalling : Falling probe (inorder t)) (hfind : find probe t = some a) {fuel : ℕ}
    (hfuel : 2 * t.numNodes ≤ fuel) :
    ∃ v' next, findNextLoop fuel checkAny fuel h a = some (h.visit v', next) ∧
      (∀ x, v' x = 0 ↔ x ≠ a ∧ h.visited x = 0) ∧
      ((∃ x, next = some x ∧ probe x = 0) ↔ Contested probe h.visited t) := by
  obtain ⟨v', n, next, hn, hsteps, hrun⟩ :=
    walk_found hrep.links hrep.nodup hfalling hfind h.visited
  refine ⟨v', next, ?_, fun x ↦ (hsteps.visited x).trans counted_eq_zero_iff, hsteps.contested⟩
  have hrun := hrun fuel (fuel - n) (by omega)
  rw [Nat.sub_add_cancel (hn.trans hfuel), Option.or_none] at hrun
  refine Eq.trans hrun ?_
  cases next with
  | none => rfl
  | some x =>
      have hunvisited : (h.visit v').visited x = 0 := hsteps.unvisited x rfl
      rw [walkAt, if_pos hunvisited]

end HavokMud.BTree
