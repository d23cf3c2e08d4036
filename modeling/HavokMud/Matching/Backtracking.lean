import Mathlib.Data.List.Basic
import Mathlib.Data.List.Infix

/-!
# Backtracking

A pattern of single elements, greedy repetitions and groups has an ordered list of matches at every
place: the first of them is the one that backtracking finds.  A search takes the first match of the
leftmost place that has one.
-/

namespace HavokMud.Matching

/-- A pattern.  Its repetitions are greedy and of single elements. -/
inductive Pattern (α : Type)
  | one (p : α → Bool)
  | many (p : α → Bool)
  | seq (first second : Pattern α)
  | group (n : ℕ) (inner : Pattern α)

/-- What is behind a match, and the texts of its groups. -/
structure Match (α : Type) where
  rest : List α
  groups : List (ℕ × List α)

namespace Pattern

variable {α : Type}

/-- At least one element. -/
def atLeastOne (p : α → Bool) : Pattern α :=
  .seq (.one p) (.many p)

/-- What is behind as many elements as there are, then behind one less, and so on. -/
def rests (p : α → Bool) : List α → List (List α)
  | [] => [[]]
  | x :: xs => if p x then rests p xs ++ [x :: xs] else [x :: xs]

/-- The matches at the beginning of a list, in the order in which they are tried. -/
def matchesAt : Pattern α → List α → List (Match α)
  | one _, [] => []
  | one p, x :: xs => if p x then [⟨xs, []⟩] else []
  | many p, xs => (rests p xs).map fun rest ↦ ⟨rest, []⟩
  | seq first second, xs =>
      (first.matchesAt xs).flatMap fun m ↦
        (second.matchesAt m.rest).map fun m' ↦ ⟨m'.rest, m.groups ++ m'.groups⟩
  | group n inner, xs =>
      (inner.matchesAt xs).map fun m ↦
        ⟨m.rest, (n, xs.take (xs.length - m.rest.length)) :: m.groups⟩

/-- The first match of the leftmost place. -/
def search (r : Pattern α) : List α → Option (Match α)
  | [] => (r.matchesAt []).head?
  | x :: xs => (r.matchesAt (x :: xs)).head?.or (r.search xs)

/-- The texts that a pattern stands for. -/
def Accepts : Pattern α → List α → Prop
  | one p, w => ∃ x, w = [x] ∧ p x = true
  | many p, w => ∀ x ∈ w, p x = true
  | seq first second, w => ∃ u v, w = u ++ v ∧ first.Accepts u ∧ second.Accepts v
  | group _ inner, w => inner.Accepts w

variable {p : α → Bool} {r s : Pattern α} {xs ys w : List α} {m m' : Match α} {n : ℕ}
  {groups : List (ℕ × List α)}

theorem accepts_atLeastOne : (atLeastOne p).Accepts w ↔ w ≠ [] ∧ ∀ x ∈ w, p x = true := by
  constructor
  · rintro ⟨u, v, rfl, ⟨x, rfl, hx⟩, hv⟩
    refine ⟨List.cons_ne_nil x v, ?_⟩
    rintro y hy
    rcases List.mem_cons.mp hy with rfl | hy
    · exact hx
    · exact hv y hy
  · rintro ⟨hne, hw⟩
    obtain ⟨x, v, rfl⟩ := List.exists_cons_of_ne_nil hne
    obtain ⟨hx, hv⟩ := List.forall_mem_cons.mp hw
    exact ⟨[x], v, rfl, ⟨x, rfl, hx⟩, hv⟩

/-! ## All matches -/

theorem mem_rests : ys ∈ rests p xs ↔ ∃ w, xs = w ++ ys ∧ ∀ x ∈ w, p x = true := by
  induction xs with
  | nil =>
      constructor
      · intro h
        obtain rfl := List.mem_singleton.mp h
        exact ⟨[], rfl, List.forall_mem_nil _⟩
      · rintro ⟨w, hw, -⟩
        obtain ⟨-, rfl⟩ := List.append_eq_nil_iff.mp hw.symm
        exact List.mem_singleton_self _
  | cons x xs ih =>
      have hzero : (∃ w, x :: xs = w ++ ys ∧ ∀ y ∈ w, p y = true) ↔
          ys = x :: xs ∨ p x = true ∧ ∃ w, xs = w ++ ys ∧ ∀ y ∈ w, p y = true := by
        constructor
        · rintro ⟨w, hw, hall⟩
          cases w with
          | nil => exact .inl hw.symm
          | cons y w =>
              obtain ⟨rfl, rfl⟩ := List.cons.inj hw
              obtain ⟨hx, hrest⟩ := List.forall_mem_cons.mp hall
              exact .inr ⟨hx, w, rfl, hrest⟩
        · rintro (rfl | ⟨hx, w, rfl, hall⟩)
          · exact ⟨[], rfl, List.forall_mem_nil _⟩
          · exact ⟨x :: w, rfl, List.forall_mem_cons.mpr ⟨hx, hall⟩⟩
      rw [hzero, ← ih, rests]
      split_ifs with hx
      · rw [List.mem_append, List.mem_singleton, or_comm, and_iff_right hx]
      · rw [List.mem_singleton]
        exact (or_iff_left fun h ↦ hx h.1).symm

theorem mem_matchesAt_many :
    m ∈ (many p).matchesAt xs ↔ ∃ w, xs = w ++ m.rest ∧ (∀ x ∈ w, p x = true) ∧ m.groups = [] := by
  constructor
  · intro h
    obtain ⟨rest, hrest, rfl⟩ := List.mem_map.mp h
    obtain ⟨w, hw, hall⟩ := mem_rests.mp hrest
    exact ⟨w, hw, hall, rfl⟩
  · rintro ⟨w, hw, hall, hgroups⟩
    obtain ⟨rest, groups⟩ := m
    obtain rfl : groups = [] := hgroups
    exact List.mem_map.mpr ⟨rest, mem_rests.mpr ⟨w, hw, hall⟩, rfl⟩

theorem mem_matchesAt_seq : m ∈ (seq r s).matchesAt xs ↔
    ∃ m₁ ∈ r.matchesAt xs, ∃ m₂ ∈ s.matchesAt m₁.rest, ⟨m₂.rest, m₁.groups ++ m₂.groups⟩ = m := by
  rw [matchesAt, List.mem_flatMap]
  simp only [List.mem_map]

theorem mem_matchesAt_group : m ∈ (group n r).matchesAt xs ↔
    ∃ m₁ ∈ r.matchesAt xs,
      ⟨m₁.rest, (n, xs.take (xs.length - m₁.rest.length)) :: m₁.groups⟩ = m := by
  rw [matchesAt, List.mem_map]

/-- The matches are the accepted beginnings. -/
theorem exists_matchesAt :
    (∃ m ∈ r.matchesAt xs, m.rest = ys) ↔ ∃ w, xs = w ++ ys ∧ r.Accepts w := by
  induction r generalizing xs ys with
  | one p =>
      cases xs with
      | nil =>
          constructor
          · rintro ⟨m, hm, -⟩
            cases hm
          · rintro ⟨w, hw, x, rfl, -⟩
            cases hw
      | cons x xs =>
          constructor
          · rintro ⟨m, hm, rfl⟩
            rw [matchesAt] at hm
            split_ifs at hm with hx
            · obtain rfl := List.mem_singleton.mp hm
              exact ⟨[x], rfl, x, rfl, hx⟩
            · cases hm
          · rintro ⟨w, hw, y, rfl, hy⟩
            obtain ⟨rfl, rfl⟩ := List.cons.inj hw
            refine ⟨⟨xs, []⟩, ?_, rfl⟩
            rw [matchesAt, if_pos hy]
            exact List.mem_singleton_self _
  | many p =>
      constructor
      · rintro ⟨m, hm, rfl⟩
        obtain ⟨w, hw, hall, -⟩ := mem_matchesAt_many.mp hm
        exact ⟨w, hw, hall⟩
      · rintro ⟨w, hw, hall⟩
        exact ⟨⟨ys, []⟩, mem_matchesAt_many.mpr ⟨w, hw, hall, rfl⟩, rfl⟩
  | seq r s ihr ihs =>
      constructor
      · rintro ⟨m, hm, rfl⟩
        obtain ⟨m₁, hm₁, m₂, hm₂, rfl⟩ := mem_matchesAt_seq.mp hm
        obtain ⟨u, hu, hr⟩ := ihr.mp ⟨m₁, hm₁, rfl⟩
        obtain ⟨v, hv, hs⟩ := ihs.mp ⟨m₂, hm₂, rfl⟩
        exact ⟨u ++ v, by rw [hu, hv, List.append_assoc], u, v, rfl, hr, hs⟩
      · rintro ⟨w, rfl, u, v, rfl, hr, hs⟩
        obtain ⟨m₁, hm₁, hrest⟩ := ihr.mpr ⟨u, List.append_assoc u v ys, hr⟩
        obtain ⟨m₂, hm₂, rfl⟩ := ihs.mpr ⟨v, hrest, hs⟩
        exact ⟨_, mem_matchesAt_seq.mpr ⟨m₁, hm₁, m₂, hm₂, rfl⟩, rfl⟩
  | group n r ih =>
      change _ ↔ ∃ w, xs = w ++ ys ∧ r.Accepts w
      rw [← ih]
      constructor
      · rintro ⟨m, hm, rfl⟩
        obtain ⟨m₁, hm₁, rfl⟩ := mem_matchesAt_group.mp hm
        exact ⟨m₁, hm₁, rfl⟩
      · rintro ⟨m, hm, rfl⟩
        exact ⟨_, mem_matchesAt_group.mpr ⟨m, hm, rfl⟩, rfl⟩

theorem take_consumed (w ys : List α) : (w ++ ys).take ((w ++ ys).length - ys.length) = w := by
  rw [List.length_append, Nat.add_sub_cancel, List.take_left]

/-- A group has the text that its pattern accepts. -/
theorem mem_matchesAt_group_text (h : m ∈ (group n r).matchesAt xs) :
    ∃ w groups, xs = w ++ m.rest ∧ r.Accepts w ∧ m.groups = (n, w) :: groups := by
  obtain ⟨m₁, hm₁, rfl⟩ := mem_matchesAt_group.mp h
  obtain ⟨w, hw, hr⟩ := exists_matchesAt.mp ⟨m₁, hm₁, rfl⟩
  refine ⟨w, m₁.groups, hw, hr, ?_⟩
  rw [hw, take_consumed]

/-! ## The search -/

theorem search_of_head (h : (r.matchesAt xs).head? = some m) : r.search xs = some m := by
  cases xs with
  | nil => exact h
  | cons x xs => rw [search, h, Option.some_or]

/-- What is found is a match at some place. -/
theorem mem_of_search (h : r.search xs = some m) :
    ∃ before after, xs = before ++ after ∧ m ∈ r.matchesAt after := by
  induction xs with
  | nil => exact ⟨[], [], rfl, List.mem_of_mem_head? h⟩
  | cons x xs ih =>
      rw [search, Option.or_eq_some_iff] at h
      rcases h with hhead | ⟨-, hrest⟩
      · exact ⟨[], x :: xs, rfl, List.mem_of_mem_head? hhead⟩
      · obtain ⟨before, after, rfl, hm⟩ := ih hrest
        exact ⟨x :: before, after, rfl, hm⟩

/-- A match at any place lets the search succeed. -/
theorem search_ne_none {before after : List α} (h : r.matchesAt after ≠ []) :
    r.search (before ++ after) ≠ none := by
  induction before with
  | nil =>
      obtain ⟨m, ms, hms⟩ := List.exists_cons_of_ne_nil h
      rw [List.nil_append, search_of_head (m := m) (by rw [hms, List.head?_cons])]
      exact Option.some_ne_none m
  | cons x before ih =>
      rw [List.cons_append, search, Ne, Option.or_eq_none_iff]
      exact fun hnone ↦ ih hnone.2

/-! ## The first match -/

theorem head_one {x : α} (hx : p x = true) :
    ((one p).matchesAt (x :: xs)).head? = some ⟨xs, []⟩ := by
  rw [matchesAt, if_pos hx, List.head?_cons]

/-- A repetition goes on to the first element that is none of its own. -/
theorem head_many (hw : ∀ x ∈ w, p x = true) (hstop : ∀ y ∈ ys.head?, p y = false) :
    ((many p).matchesAt (w ++ ys)).head? = some ⟨ys, []⟩ := by
  have hrests : (rests p (w ++ ys)).head? = some ys := by
    induction w with
    | nil =>
        cases ys with
        | nil => rfl
        | cons y ys =>
            rw [List.nil_append, rests, if_neg (Bool.eq_false_iff.mp (hstop y rfl)),
              List.head?_cons]
    | cons x w ih =>
        obtain ⟨hx, hrest⟩ := List.forall_mem_cons.mp hw
        rw [List.cons_append, rests, if_pos hx, List.head?_append, ih hrest, Option.some_or]
  rw [matchesAt, List.head?_map, hrests]
  rfl

theorem head_seq (hr : (r.matchesAt xs).head? = some m)
    (hs : (s.matchesAt m.rest).head? = some m') :
    ((seq r s).matchesAt xs).head? = some ⟨m'.rest, m.groups ++ m'.groups⟩ := by
  obtain ⟨ms, hms⟩ := List.head?_eq_some_iff.mp hr
  rw [matchesAt, hms, List.flatMap_cons, List.head?_append, List.head?_map, hs]
  rfl

theorem head_atLeastOne (hne : w ≠ []) (hw : ∀ x ∈ w, p x = true)
    (hstop : ∀ y ∈ ys.head?, p y = false) :
    ((atLeastOne p).matchesAt (w ++ ys)).head? = some ⟨ys, []⟩ := by
  obtain ⟨x, w, rfl⟩ := List.exists_cons_of_ne_nil hne
  obtain ⟨hx, hrest⟩ := List.forall_mem_cons.mp hw
  exact head_seq (head_one hx) (head_many hrest hstop)

theorem head_group (hr : (r.matchesAt (w ++ ys)).head? = some ⟨ys, groups⟩) :
    ((group n r).matchesAt (w ++ ys)).head? = some ⟨ys, (n, w) :: groups⟩ := by
  rw [matchesAt, List.head?_map, hr, Option.map_some, take_consumed]

end Pattern

end HavokMud.Matching
