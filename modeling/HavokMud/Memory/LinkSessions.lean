import HavokMud.Memory.StringRuns

/-!
# Sessions of links to one string

A session links to one string some times and frees the results.  However many of them are freed, the
record of the string stays in the pool of allocations: with the last link `memfree` is called with
the address of the record's tree item, which lies inside the fragment of the record and is not the
start of one.
-/

namespace HavokMud.Memory

open BinaryTree BTree SearchTree HavokMud.Interval

/-- The calls of a session for `text`: links to it, and `memfree` of their results. -/
def Op.InSession (text : List UInt8) (x : Scene) : Op → Prop
  | .memstrlink orig _ => orig = text
  | .memfree p => p ∈ x.clients.links.map Prod.fst
  | .coalesce => True
  | .memalloc _ _ | .memrealloc _ _ _ | .memstrdup _ _ | .memstrnlink _ _ _ _ | .write _ _ => False

instance Op.decidableInSession (text : List UInt8) (x : Scene) :
    (op : Op) → Decidable (op.InSession text x)
  | .memstrlink _ _ => inferInstanceAs (Decidable (_ = _))
  | .memfree _ => inferInstanceAs (Decidable (_ ∈ _))
  | .coalesce => isTrue trivial
  | .memalloc _ _ | .memrealloc _ _ _ | .memstrdup _ _ | .memstrnlink _ _ _ _ | .write _ _ =>
      isFalse id

/-- The scene in which a session begins: only its own links are freed in it. -/
def Scene.opened (x : Scene) : Scene :=
  { x with clients := { x.clients with links := [] } }

/-- A session for `text` leads from `x` to `y`. -/
def Session (pl : Platform) (text : List UInt8) (x y : Scene) : Prop :=
  Relation.ReflTransGen (Moves pl fun z op ↦ op.InSession text z) x.opened y

/-- What holds in a session for a text that was not interned: `news` was handed out in it, and if
nothing was then no link was made either. -/
structure SessionInv (pl : Platform) (text : List UInt8) (x y : Scene) (news : List (ℤ × ℤ)) :
    Prop where
  scene : SceneInv pl y
  perm : (handed y.state.allocator).Perm (news ++ handed x.state.allocator)
  none_made : news = [] → y.clients.records = x.clients.records ∧ y.clients.links = [] ∧
    y.state.findString pl text = none

variable {pl : Platform} {guard : Scene → Op → Prop} {x y z : Scene} {text : List UInt8}
  {news : List (ℤ × ℤ)}

namespace SessionInv

/-- One call of the session. -/
theorem step (h : SessionInv pl text x y news) {op : Op} {result : ℤ} {s : State}
    (hallowed : op.Allowed pl y.state y.clients) (hin : op.InSession text y)
    (hsane : op.Sane pl y.state) (hstep : op.step pl y.now y.state = some (s, result)) :
    ∃ news', SessionInv pl text x ⟨y.now, s, op.clientsAfter pl y.clients result⟩ news' := by
  have hscene := h.scene.step hallowed hsane hstep
  cases op with
  | memstrlink orig blk =>
      obtain rfl : orig = text := hin
      cases hfind : y.state.findString pl orig with
      | some r =>
          obtain ⟨rfl, rfl⟩ : y.state.setCount r (toInt (y.state.count r + 1)) = s ∧
              r + pl.bufOffset = result := by
            simpa [Op.step, memstrlink_found hfind] using hstep
          refine ⟨news, hscene, h.perm, fun hnil ↦ ?_⟩
          simp [(h.none_made hnil).2.2] at hfind
      | none =>
          obtain ⟨s', r, hrun, hnew⟩ :=
            h.scene.interned.memstrlink_new hallowed hfind (hsane hfind)
          obtain ⟨rfl, rfl⟩ : s' = s ∧ r + pl.bufOffset = result := by
            simpa [Op.step, hrun] using hstep
          exact ⟨(r, _) :: news, hscene, hnew.perm.trans (h.perm.cons _),
            fun hnil ↦ by simp at hnil⟩
  | memfree p =>
      obtain ⟨l, hl, rfl⟩ := List.mem_map.mp hin
      obtain ⟨r, hr, haddr⟩ := h.scene.links l hl
      have hbuf := pl.buf_inside
      have hitem := pl.item_before_buf
      obtain ⟨s', hrun, -, halloc, -⟩ := h.scene.interned.memfreeLoop_inside
        (Nat.lt_succ_self _) hr (by omega : (0 : ℤ) < pl.bufOffset) (by omega)
      rw [← haddr] at hrun
      obtain ⟨rfl, -⟩ : s' = s ∧ 0 = result := by
        simpa [Op.step, Memory.memfree, hrun] using hstep
      refine ⟨news, hscene, ?_, fun hnil ↦ ?_⟩
      · rw [halloc]
        exact h.perm
      · rw [(h.none_made hnil).2.1] at hl
        exact absurd hl List.not_mem_nil
  | coalesce =>
      obtain ⟨a, hrun, -, hhanded⟩ := h.scene.interned.coalesce
      obtain ⟨rfl, -⟩ : { y.state with allocator := a } = s ∧ 0 = result := by
        simpa [Op.step, hrun] using hstep
      refine ⟨news, hscene, ?_, h.none_made⟩
      simp only [hhanded]
      exact h.perm
  | memalloc size blk => exact hin.elim
  | memrealloc ptr size blk => exact hin.elim
  | memstrdup orig blk => exact hin.elim
  | memstrnlink orig len blk blk' => exact hin.elim
  | write p bytes => exact hin.elim

theorem mono (h : SessionInv pl text x y news) {later : ℤ} (hle : y.now ≤ later) :
    SessionInv pl text x { y with now := later } news :=
  ⟨h.scene.mono hle, h.perm, h.none_made⟩

end SessionInv

/-- What a session for a text that was not interned hands out. -/
theorem Session.inv (hinv : SceneInv pl x) (hnew : x.state.findString pl text = none)
    (hsession : Session pl text x y) : ∃ news, SessionInv pl text x y news := by
  induction hsession with
  | refl =>
      exact ⟨[], ⟨hinv.interned, hinv.raw, by simp [Scene.opened]⟩, .refl _, fun _ ↦
        ⟨rfl, rfl, hnew⟩⟩
  | tail _ hmoves ih =>
      obtain ⟨news, h⟩ := ih
      obtain ⟨hle, hallowed, hin, hsane, hstep⟩ := hmoves
      exact (h.mono hle).step hallowed hin hsane hstep

/-- Every scene of a session satisfies the invariant of a run. -/
theorem Session.scene (hinv : SceneInv pl x) (hsession : Session pl text x y) : SceneInv pl y := by
  induction hsession with
  | refl => exact ⟨hinv.interned, hinv.raw, by simp [Scene.opened]⟩
  | tail _ hmoves ih => exact ih.moves hmoves

/-- No session reclaims its string: the fragment of every record ever made stays in the pool of
allocations, and after at least one link to a string that was not interned `memAllocBytes` is not
what it was before. -/
theorem session_leaks (hrun : StringRun pl guard x) (hsession : Session pl text x y) :
    (∀ r ∈ y.clients.records, ∃ f, (y.state.allocator.frags f).pool = some .alloc ∧
      y.state.allocator.start f = r) ∧
    (x.state.findString pl text = none → x.clients.records.length < y.clients.records.length →
      y.state.allocator.memAllocBytes ≠ x.state.allocator.memAllocBytes) := by
  refine ⟨fun r hr ↦ ?_, fun hnew hmade hbytes ↦ ?_⟩
  · have hinterned := (hsession.scene hrun.inv).interned
    obtain ⟨n, hn, -⟩ := hinterned.kept r hr
    obtain ⟨f, hf, hextent⟩ := hinterned.inv.mem_handed.mp hn
    exact ⟨f, hf, congrArg Prod.fst hextent⟩
  · obtain ⟨news, h⟩ := hsession.inv hrun.inv hnew
    have hx := hrun.inv.interned.exact
    have hy := h.scene.interned.exact
    rw [Exact, allocTotal_of_perm h.perm, List.map_append, List.sum_append] at hy
    have hsum : (news.map Prod.snd).sum = 0 := by
      rw [hbytes, hx] at hy
      simpa [allocTotal] using hy
    have hnonempty : news ≠ [] := fun hnil ↦ by
      rw [(h.none_made hnil).1] at hmade
      exact lt_irrefl _ hmade
    have hpos : 0 < (news.map Prod.snd).sum := by
      refine List.sum_pos _ (fun n hn ↦ ?_) (by simpa using hnonempty)
      obtain ⟨piece, hpiece, rfl⟩ := List.mem_map.mp hn
      have hmem := h.perm.mem_iff.mpr (List.mem_append_left _ hpiece)
      exact (h.scene.interned.inv.handed_inside hmem).2.1
    omega

/-- The scene after one link to `"a"` and the `memfree` of its result. -/
def linkedOnce : Option Scene :=
  replay lp64 (fun z op ↦ op.InSession [97] z) (Scene.initial 0)
    [.memstrlink [97] 4096, .memfree 4168]

/-- One link to `"a"`, freed again: 81 bytes stay allocated. -/
theorem session_leaks_once : ∃ y, linkedOnce = some y ∧
    (∃ f, (y.state.allocator.frags f).pool = some .alloc ∧ y.state.allocator.start f = 4096) ∧
      y.state.allocator.memAllocBytes ≠ initial.allocator.memAllocBytes := by
  obtain ⟨y, hy⟩ := Option.isSome_iff_exists.mp (by decide +kernel : linkedOnce.isSome = true)
  have hfacts : linkedOnce.any (fun y ↦ y.clients.records = [4096]) = true := by decide +kernel
  simp only [hy, Option.any_some, decide_eq_true_eq] at hfacts
  have hrun : StringRun lp64 (fun _ _ ↦ True) (Scene.initial 0) := ⟨0, .refl⟩
  have hsession : Session lp64 [97] (Scene.initial 0) y := moves_of_replay hy
  obtain ⟨hkept, hbytes⟩ := session_leaks hrun hsession
  refine ⟨y, hy, hkept 4096 (by simp [hfacts]), hbytes rfl ?_⟩
  simp [hfacts, Scene.initial]

/-- After the one link was freed the string is not interned and no link is held, but its record is
neither in the deferred pool nor off the counter. -/
theorem session_unreclaimed : ∃ y, linkedOnce = some y ∧ y.clients.links = [] ∧
    inorder y.state.stringTree = [] ∧ (4096, 81) ∈ handed y.state.allocator ∧
      inorder (y.state.allocator.pools .defer).addrTree = [] ∧
        y.state.allocator.memAllocBytes = 81 ∧ initial.allocator.memAllocBytes = 0 := by
  obtain ⟨y, hy⟩ := Option.isSome_iff_exists.mp (by decide +kernel : linkedOnce.isSome = true)
  have hfacts : linkedOnce.any (fun y ↦ y.clients.links = [] ∧ inorder y.state.stringTree = [] ∧
      (4096, 81) ∈ handed y.state.allocator ∧
        inorder (y.state.allocator.pools .defer).addrTree = [] ∧
          y.state.allocator.memAllocBytes = 81) = true := by decide +kernel
  simp only [hy, Option.any_some, decide_eq_true_eq] at hfacts
  obtain ⟨hlinks, htree, hhanded, hdefer, hbytes⟩ := hfacts
  exact ⟨y, hy, hlinks, htree, hhanded, hdefer, hbytes, rfl⟩

end HavokMud.Memory
