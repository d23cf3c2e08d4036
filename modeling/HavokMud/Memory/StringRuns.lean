import HavokMud.Memory.Interning
import Mathlib.Logic.Relation

/-!
# Runs with interned strings

Clients get buffers from `memalloc` and `memstrdup`, links from `memstrlink` and `memstrnlink`,
write into memory wherever no interned text stands, and free what they got.  Beside the state a run
keeps what the clients hold.  In every state of such a run the records of all strings are handed
out, and `memstrlink` returns the text it was asked for unless another spelling of it was interned
before.
-/

namespace HavokMud.Memory

open BinaryTree BTree SearchTree HavokMud.Interval

/-- What the clients hold: the buffers that are not freed, with their sizes, the links that are not
given up, with the text that was asked for, and the records of all links ever made. -/
structure Clients where
  raw : List (ℤ × ℤ)
  links : List (ℤ × List UInt8)
  records : List ℤ

/-- The state of the program, with the time of the last call and what its clients hold. -/
structure Scene where
  now : ℤ
  state : State
  clients : Clients

/-- Nothing has been called yet. -/
def Scene.initial (now : ℤ) : Scene :=
  ⟨now, Memory.initial, ⟨[], [], []⟩⟩

/-- What clients may do.  They free the buffers and the links they got, the latter even too often.
`write` stands for every write of the program that does not change an interned text. -/
def Op.Allowed (pl : Platform) (s : State) (c : Clients) : Op → Prop
  | .memalloc _ _ | .coalesce => True
  | .memstrdup orig _ | .memstrlink orig _ | .memstrnlink orig _ _ _ => 0 ∉ orig
  | .memfree p => p = 0 ∨ (∃ n, (p, n) ∈ c.raw) ∨ ∃ r ∈ c.records, p = r + pl.bufOffset
  | .write p bytes => ∀ r ∈ inorder s.stringTree,
      Apart p bytes.length (r + pl.bufOffset) ((s.textOf pl r).length + 1)
  | .memrealloc _ _ _ => False

/-- The clients get a link at `result` for `text`. -/
def Clients.link (c : Clients) (pl : Platform) (result : ℤ) (text : List UInt8) : Clients :=
  { c with links := (result, text) :: c.links, records := (result - pl.bufOffset) :: c.records }

/-- What the clients hold after a call. -/
def Op.clientsAfter (pl : Platform) (c : Clients) (result : ℤ) : Op → Clients
  | .memalloc size _ => if size = 0 then c else { c with raw := (result, (size : ℤ)) :: c.raw }
  | .memstrdup orig _ => { c with raw := (result, (orig.length + 1 : ℤ)) :: c.raw }
  | .memstrlink orig _ => c.link pl result orig
  | .memstrnlink orig len _ _ => if len = 0 then c else c.link pl result (orig.take len)
  | .memfree p => { c with raw := without c.raw p, links := c.links.eraseP (·.1 = p) }
  | .write _ _ | .coalesce | .memrealloc _ _ _ => c

/-- One call that meets `guard`. -/
inductive Moves (pl : Platform) (guard : Scene → Op → Prop) (x : Scene) : Scene → Prop where
  | call {op : Op} {later result : ℤ} {s : State} (hle : x.now ≤ later)
      (hallowed : op.Allowed pl x.state x.clients) (hguard : guard x op)
      (hsane : op.Sane pl x.state) (hstep : op.step pl later x.state = some (s, result)) :
      Moves pl guard x ⟨later, s, op.clientsAfter pl x.clients result⟩

/-- The scenes of the runs all of whose calls meet `guard`. -/
def StringRun (pl : Platform) (guard : Scene → Op → Prop) (x : Scene) : Prop :=
  ∃ now, Relation.ReflTransGen (Moves pl guard) (Scene.initial now) x

/-! ## Runs that can be evaluated -/

instance Op.decidableAllowed (pl : Platform) (s : State) (c : Clients) :
    (op : Op) → Decidable (op.Allowed pl s c)
  | .memalloc _ _ | .coalesce => isTrue trivial
  | .memstrdup orig _ | .memstrlink orig _ | .memstrnlink orig _ _ _ =>
      inferInstanceAs (Decidable (0 ∉ orig))
  | .memfree p => decidable_of_iff
      (p = 0 ∨ p ∈ c.raw.map Prod.fst ∨ ∃ r ∈ c.records, p = r + pl.bufOffset)
      (by simp [Op.Allowed])
  | .write p bytes => inferInstanceAs (Decidable (∀ r ∈ inorder s.stringTree,
      Apart p bytes.length (r + pl.bufOffset) ((s.textOf pl r).length + 1)))
  | .memrealloc _ _ _ => isFalse id

/-- The scene after some calls, all at the same time, if each of them is one of the run. -/
def replay (pl : Platform) (guard : Scene → Op → Prop) [∀ x op, Decidable (guard x op)] :
    Scene → List Op → Option Scene
  | x, [] => some x
  | x, op :: ops =>
      if op.Allowed pl x.state x.clients ∧ guard x op ∧ op.Sane pl x.state then
        (op.step pl x.now x.state).bind fun r ↦
          replay pl guard ⟨x.now, r.1, op.clientsAfter pl x.clients r.2⟩ ops
      else none

theorem moves_of_replay {pl : Platform} {guard : Scene → Op → Prop} [∀ x op, Decidable (guard x op)]
    {x y : Scene} {ops : List Op} (h : replay pl guard x ops = some y) :
    Relation.ReflTransGen (Moves pl guard) x y := by
  induction ops generalizing x with
  | nil =>
      obtain rfl : x = y := Option.some.inj h
      exact .refl
  | cons op ops ih =>
      rw [replay] at h
      split_ifs at h with hcheck
      obtain ⟨⟨s, result⟩, hstep, hrest⟩ := Option.bind_eq_some_iff.mp h
      exact .head (.call le_rfl hcheck.1 hcheck.2.1 hcheck.2.2 hstep) (ih hrest)

/-! ## The invariant of a run -/

/-- What holds in every scene: the buffers are handed out beside the records, and the links are to
records. -/
structure SceneInv (pl : Platform) (x : Scene) : Prop where
  interned : Interned pl x.now x.state x.clients.records
  raw : ∀ y ∈ x.clients.raw, y ∈ handed x.state.allocator ∧ y.1 ∉ x.clients.records
  links : ∀ l ∈ x.clients.links, ∃ r ∈ x.clients.records, l.1 = r + pl.bufOffset

variable {pl : Platform} {guard : Scene → Op → Prop} {x y : Scene}

theorem sceneInv_initial (pl : Platform) (now : ℤ) : SceneInv pl (Scene.initial now) :=
  ⟨interned_initial pl now, by simp [Scene.initial], by simp [Scene.initial]⟩

namespace SceneInv

/-- An address a client may free is not that of a record. -/
theorem free_address (h : SceneInv pl x) {p : ℤ}
    (hallowed : (Op.memfree p).Allowed pl x.state x.clients) :
    0 ≤ p ∧ p < 2 ^ 64 ∧ p ∉ x.clients.records := by
  rcases hallowed with rfl | ⟨n, hn⟩ | ⟨r, hr, rfl⟩
  · refine ⟨le_rfl, by norm_num, fun hrec ↦ ?_⟩
    obtain ⟨n, hn, -⟩ := h.interned.kept 0 hrec
    exact absurd (h.interned.inv.handed_inside hn).1 (lt_irrefl _)
  · obtain ⟨hhanded, hrec⟩ := h.raw _ hn
    obtain ⟨hpos, hsize, -, hend⟩ := h.interned.inv.handed_inside hhanded
    simp only at hpos hsize hend
    exact ⟨hpos.le, by omega, hrec⟩
  · have hbuf := pl.buf_inside
    have hitem := pl.item_before_buf
    obtain ⟨hpos, hlt⟩ :=
        h.interned.inside_address hr (by omega : (0 : ℤ) < pl.bufOffset) (by omega)
    refine ⟨hpos.le, hlt, fun hrec ↦ ?_⟩
    obtain ⟨n, hn, -⟩ := h.interned.kept _ hrec
    exact h.interned.not_handed_inside hr (by omega) (by omega) n hn

/-- A buffer for a client. -/
theorem buffered (h : SceneInv pl x) {later p size : ℤ} {s : State}
    (hbuffered : Buffered pl later x.state s p size x.clients.records) :
    SceneInv pl ⟨later, s, { x.clients with raw := (p, size) :: x.clients.raw }⟩ where
  interned := hbuffered.after
  raw y hy := by
    rcases List.mem_cons.mp hy with rfl | hy
    · exact ⟨hbuffered.perm.mem_iff.mpr List.mem_cons_self, hbuffered.fresh⟩
    · obtain ⟨hhanded, hrec⟩ := h.raw y hy
      exact ⟨hbuffered.perm.mem_iff.mpr (List.mem_cons_of_mem _ hhanded), hrec⟩
  links := h.links

/-- A link for a client. -/
theorem linked (h : SceneInv pl x) {later r : ℤ} {s : State} {text : List UInt8}
    (hlinked : Linked pl later x.state s r text x.clients.records) :
    SceneInv pl ⟨later, s, x.clients.link pl (r + pl.bufOffset) text⟩ where
  interned := by
    simp only [Clients.link, add_sub_cancel_right]
    exact hlinked.after
  raw y hy := by
    simp only [Clients.link, add_sub_cancel_right] at hy ⊢
    obtain ⟨hhanded, hrec⟩ := h.raw y hy
    refine ⟨hlinked.handed y hhanded, ?_⟩
    rw [List.mem_cons, not_or]
    exact ⟨hlinked.fresh y hhanded hrec, hrec⟩
  links l hl := by
    simp only [Clients.link, add_sub_cancel_right] at hl ⊢
    rcases List.mem_cons.mp hl with rfl | hl
    · exact ⟨r, List.mem_cons_self, rfl⟩
    · obtain ⟨b, hb, heq⟩ := h.links l hl
      exact ⟨b, List.mem_cons_of_mem _ hb, heq⟩

theorem mono (h : SceneInv pl x) {later : ℤ} (hle : x.now ≤ later) :
    SceneInv pl { x with now := later } :=
  ⟨h.interned.mono hle, h.raw, h.links⟩

/-- One call. -/
theorem step (h : SceneInv pl x) {op : Op} {result : ℤ} {s : State}
    (hallowed : op.Allowed pl x.state x.clients) (hsane : op.Sane pl x.state)
    (hstep : op.step pl x.now x.state = some (s, result)) :
    SceneInv pl ⟨x.now, s, op.clientsAfter pl x.clients result⟩ := by
  cases op with
  | memalloc size blk =>
      rcases Nat.eq_zero_or_pos size with rfl | hpos
      · obtain ⟨rfl, -⟩ : x.state = s ∧ 0 = result := by
          simpa [Op.step, memalloc, Allocator.memalloc] using hstep
        exact h
      · obtain ⟨s', p, hrun, hbuffered⟩ := h.interned.memalloc hpos hsane
        obtain ⟨rfl, rfl⟩ : s' = s ∧ p = result := by simpa [Op.step, hrun] using hstep
        simp only [Op.clientsAfter, if_neg hpos.ne']
        exact h.buffered hbuffered
  | memstrdup orig blk =>
      obtain ⟨s', p, hrun, hbuffered⟩ := h.interned.memstrdup hsane
      obtain ⟨rfl, rfl⟩ : s' = s ∧ p = result := by simpa [Op.step, hrun] using hstep
      exact h.buffered hbuffered
  | memstrlink orig blk =>
      obtain ⟨s', r, hrun, hlinked, -⟩ := h.interned.memstrlink hallowed hsane
      obtain ⟨rfl, rfl⟩ : s' = s ∧ r + pl.bufOffset = result := by simpa [Op.step, hrun] using hstep
      exact h.linked hlinked
  | memstrnlink orig len blk blk' =>
      rcases Nat.eq_zero_or_pos len with rfl | hpos
      · obtain ⟨rfl, -⟩ : x.state = s ∧ 0 = result := by
          simpa [Op.step, memstrnlink] using hstep
        exact h
      · obtain ⟨s', r, hrun, hlinked⟩ := h.interned.memstrnlink hallowed hpos hsane
        obtain ⟨rfl, rfl⟩ : s' = s ∧ r + pl.bufOffset = result := by
          simpa [Op.step, hrun] using hstep
        simp only [Op.clientsAfter, if_neg hpos.ne']
        exact h.linked hlinked
  | memfree p =>
      obtain ⟨hnonneg, hlt, hrec⟩ := h.free_address hallowed
      obtain ⟨s', hrun, hafter, -, hkeep⟩ := h.interned.memfree hnonneg hlt hrec
      obtain ⟨rfl, -⟩ : s' = s ∧ 0 = result := by simpa [Op.step, hrun] using hstep
      refine ⟨hafter, fun y hy ↦ ?_, fun l hl ↦ h.links l (List.mem_of_mem_eraseP hl)⟩
      obtain ⟨hraw, hne⟩ := List.mem_filter.mp hy
      obtain ⟨hhanded, hrec'⟩ := h.raw y hraw
      exact ⟨hkeep y hhanded (by simpa using hne), hrec'⟩
  | write p bytes =>
      obtain ⟨rfl, -⟩ := Prod.mk.inj (Option.some.inj hstep)
      exact ⟨(h.interned.write hallowed).1, h.raw, h.links⟩
  | coalesce =>
      obtain ⟨a, hrun, hafter, hhanded⟩ := h.interned.coalesce
      obtain ⟨rfl, -⟩ : { x.state with allocator := a } = s ∧ 0 = result := by
        simpa [Op.step, hrun] using hstep
      refine ⟨hafter, fun y hy ↦ ?_, h.links⟩
      simp only [hhanded]
      exact h.raw y hy
  | memrealloc ptr size blk => exact hallowed.elim

theorem moves (h : SceneInv pl x) (hmoves : Moves pl guard x y) : SceneInv pl y := by
  obtain ⟨hle, hallowed, -, hsane, hstep⟩ := hmoves
  exact (h.mono hle).step hallowed hsane hstep

end SceneInv

theorem StringRun.inv (hrun : StringRun pl guard x) : SceneInv pl x := by
  obtain ⟨now, hrun⟩ := hrun
  induction hrun with
  | refl => exact sceneInv_initial pl now
  | tail _ hmoves ih => exact ih.moves hmoves

/-! ## The text behind a link -/

/-- The scene after some calls from the start. -/
theorem stringRun_of_replay {guard : Scene → Op → Prop} [∀ x op, Decidable (guard x op)]
    {ops : List Op} (h : replay pl guard (Scene.initial 0) ops = some x) : StringRun pl guard x :=
  ⟨0, moves_of_replay h⟩

end HavokMud.Memory
