import HavokMud.Memory.StringRuns

/-!
# Counting links

The `count` of a record is meant to be the number of links to it that clients hold.  It is, as long
as no call falls for a text it should not look at: `memfree` takes any buffer whose bytes spell an
interned string for a link to it, `memstrnlink` does so with its own copy, and the `memfree` of a
record that has left the tree looks for the empty string.
-/

namespace HavokMud.Memory

open BinaryTree BTree SearchTree HavokMud.Interval

/-- How many links for `text` the clients hold. -/
def outstanding (c : Clients) (text : List UInt8) : ℕ :=
  (c.links.map Prod.snd).count text

/-- The calls after which the counts are right: a link is made under one spelling only and fits the
counter, a buffer is freed when it spells no interned string, and a link is freed once, with no link
to `""` about when the last one to another string goes. -/
def Op.Careful (pl : Platform) (x : Scene) : Op → Prop
  | .memstrlink orig _ => NoVariant pl x.state orig ∧ outstanding x.clients orig + 1 < 2 ^ 31
  | .memstrnlink _ len _ _ => len = 0
  | .memfree p => p = 0 ∨
      (p ∈ x.clients.raw.map Prod.fst ∧ x.state.findString pl (cstring x.state.mem p) = none) ∨
      ∃ l ∈ x.clients.links, l.1 = p ∧
        (outstanding x.clients l.2 = 1 → l.2 ≠ [] → outstanding x.clients [] = 0)
  | _ => True

instance Op.decidableCareful (pl : Platform) (x : Scene) : (op : Op) → Decidable (op.Careful pl x)
  | .memstrlink _ _ => inferInstanceAs (Decidable (_ ∧ _))
  | .memstrnlink _ _ _ _ => inferInstanceAs (Decidable (_ = _))
  | .memfree _ => inferInstanceAs (Decidable (_ ∨ _ ∨ _))
  | .memalloc _ _ | .memrealloc _ _ _ | .memstrdup _ _ | .write _ _ | .coalesce => isTrue trivial

/-- In every scene of a run of careful calls the records on the tree are those linked to, and their
counts are right. -/
structure LinkInv (pl : Platform) (x : Scene) : Prop where
  scene : SceneInv pl x
  counted : ∀ r ∈ inorder x.state.stringTree,
    x.state.count r = outstanding x.clients (x.state.textOf pl r) ∧
      0 < outstanding x.clients (x.state.textOf pl r)
  linked : ∀ l ∈ x.clients.links, ∃ r ∈ inorder x.state.stringTree,
    l.1 = r + pl.bufOffset ∧ x.state.textOf pl r = l.2
  bounded : ∀ text, outstanding x.clients text < 2 ^ 31

variable {pl : Platform} {x y : Scene} {c : Clients} {text : List UInt8} {p : ℤ}

theorem outstanding_link (c : Clients) (pl : Platform) (p : ℤ) (text text' : List UInt8) :
    outstanding (c.link pl p text) text' =
      outstanding c text' + if text = text' then 1 else 0 := by
  simp only [outstanding, Clients.link, List.map_cons, List.count_cons, beq_iff_eq]

theorem outstanding_pos : 0 < outstanding c text ↔ ∃ l ∈ c.links, l.2 = text := by
  rw [outstanding, List.count_pos_iff, List.mem_map]

/-- One link at `p` less. -/
theorem outstanding_erase (hp : ∃ l ∈ c.links, l.1 = p)
    (htext : ∀ l ∈ c.links, l.1 = p → l.2 = text)
    (raw : List (ℤ × ℤ)) (text' : List UInt8) :
    outstanding { c with raw := raw, links := c.links.eraseP (·.1 = p) } text' +
      (if text = text' then 1 else 0) = outstanding c text' := by
  obtain ⟨l, hl, hlp⟩ := hp
  obtain ⟨a, l₁, l₂, -, ha, hsplit, herase⟩ :=
    List.exists_of_eraseP (p := fun l : ℤ × List UInt8 ↦ decide (l.1 = p)) hl (by simpa using hlp)
  have hatext : a.2 = text := htext a (by rw [hsplit]; simp) (by simpa using ha)
  simp only [outstanding, herase]
  simp only [hsplit, List.map_append, List.map_cons, List.count_append,
    List.count_cons, hatext, beq_iff_eq]
  omega

/-! ## Buffers -/

namespace SceneInv

/-- A link is not at the address of a buffer. -/
theorem link_ne (h : SceneInv pl x) {l : ℤ × List UInt8} (hl : l ∈ x.clients.links)
    (hp : p = 0 ∨ ∃ n, (p, n) ∈ x.clients.raw) : l.1 ≠ p := by
  have hbuf := pl.buf_inside
  have hitem := pl.item_before_buf
  have hlo : (0 : ℤ) < pl.bufOffset := by omega
  have hhi : (pl.bufOffset : ℤ) < pl.sizeofString := by omega
  obtain ⟨r, hr, haddr⟩ := h.links l hl
  rintro rfl
  rw [haddr] at hp
  rcases hp with hzero | ⟨n, hn⟩
  · exact (h.interned.inside_address hr hlo hhi).1.ne' hzero
  · exact h.interned.not_handed_inside hr hlo hhi n (h.raw _ hn).1

/-- No link is given up with a buffer. -/
theorem links_freed (h : SceneInv pl x) (hp : p = 0 ∨ ∃ n, (p, n) ∈ x.clients.raw) :
    ((Op.memfree p).clientsAfter pl x.clients 0).links = x.clients.links :=
  List.eraseP_of_forall_not fun l hl ↦ by simpa using h.link_ne hl hp

/-- `memfree` of a buffer that spells no interned string moves its fragment to the deferred pool,
and changes nothing else. -/
theorem memfree_raw (h : SceneInv pl x) {n later : ℤ} (hraw : (p, n) ∈ x.clients.raw)
    (hle : x.now ≤ later) (hfind : x.state.findString pl (cstring x.state.mem p) = none) :
    ∃ a f, memfree pl x.state later p = some { x.state with allocator := a } ∧
      (x.state.allocator.frags f).pool = some .alloc ∧ extent x.state.allocator f = (p, n) ∧
      a.frags f =
        { x.state.allocator.frags f with pool := some .defer, timestamp := later + timeDefer } ∧
      ∀ g, g ≠ f → a.frags g = x.state.allocator.frags g := by
  have hinv := h.interned.inv.mono hle
  obtain ⟨f, hf, hextent⟩ := hinv.mem_handed.mp (h.raw _ hraw).1
  have hu := hinv.inUse_of_pool hf
  have hstart : x.state.allocator.start f = p := congrArg Prod.fst hextent
  have hfound : memoryFragmentFindByAddr x.state.allocator .alloc p = some f := by
    rw [← hstart]
    exact ((hinv.index .alloc).findByAddr_iff hinv.ordered_of_pool (hinv.start_pos_of_inUse hu)
      (hinv.ordered hu).start_lt).mpr ⟨hf, rfl⟩
  obtain ⟨a, hrun, -, -, -, -, hmoved, hothers⟩ := hinv.memfree_found hfound hf
  refine ⟨a, f, ?_, hf, hextent, hmoved, hothers⟩
  rw [memfree, memfreeLoop_none fun _ ↦ hfind, hrun]
  rfl

end SceneInv

/-! ## Links -/

namespace LinkInv

/-- A call that leaves the tree, its texts, the counts and the links alone. -/
theorem kept (h : LinkInv pl x) (hscene : SceneInv pl y)
    (htree : y.state.stringTree = x.state.stringTree) (hcount : y.state.count = x.state.count)
    (htexts : TextsKept pl x.state y.state) (hlinks : y.clients.links = x.clients.links) :
    LinkInv pl y := by
  have hout : ∀ text, outstanding y.clients text = outstanding x.clients text := fun text ↦ by
    rw [outstanding, hlinks, outstanding]
  refine ⟨hscene, fun r hr ↦ ?_, fun l hl ↦ ?_, fun text ↦ ?_⟩
  · rw [htree] at hr
    rw [hcount, hout, htexts r hr]
    exact h.counted r hr
  · rw [hlinks] at hl
    obtain ⟨r, hr, heq, htext⟩ := h.linked l hl
    exact ⟨r, by rwa [htree], heq, by rwa [htexts r hr]⟩
  · rw [hout]
    exact h.bounded text

/-- Two records of one text are the same. -/
theorem eq_of_text (h : LinkInv pl x) {r b : ℤ} (hr : r ∈ inorder x.state.stringTree)
    (hb : b ∈ inorder x.state.stringTree) (heq : x.state.textOf pl r = x.state.textOf pl b) :
    r = b := by
  have hfind := fun {a} ↦ h.scene.interned.findString_eq_some_iff (r := a)
    (nul_not_mem_cstring x.state.mem (b + pl.bufOffset))
  have hr' := hfind.mpr ⟨hr, congrArg fold heq⟩
  have hb' := hfind.mpr ⟨hb, rfl⟩
  simpa [hr'] using hb'

/-- `memstrlink` of a text with no other spelling on the tree. -/
theorem link (h : LinkInv pl x) {orig : List UInt8} {blk result : ℤ} {s : State} (hnul : 0 ∉ orig)
    (hno : NoVariant pl x.state orig) (hbound : outstanding x.clients orig + 1 < 2 ^ 31)
    (hsane : (Op.memstrlink orig blk).Sane pl x.state)
    (hstep : memstrlink pl x.state orig blk = some (s, result)) :
    LinkInv pl ⟨x.now, s, x.clients.link pl result orig⟩ := by
  have hscene : SceneInv pl ⟨x.now, s, x.clients.link pl result orig⟩ :=
    h.scene.step (show (Op.memstrlink orig blk).Allowed pl x.state x.clients from hnul) hsane hstep
  have hinterned := h.scene.interned
  have hbounded : ∀ text, outstanding (x.clients.link pl result orig) text < 2 ^ 31 := fun text ↦ by
    rw [outstanding_link]
    split_ifs with heq
    · exact heq ▸ hbound
    · exact h.bounded text
  cases hfind : x.state.findString pl orig with
  | some r =>
      obtain ⟨rfl, rfl⟩ : x.state.setCount r (toInt (x.state.count r + 1)) = s ∧
          r + pl.bufOffset = result := by
        simpa [memstrlink_found hfind] using hstep
      have hr := ((hinterned.findString_eq_some_iff hnul).mp hfind).1
      have htext := (hinterned.noVariant_iff hnul hfind).mp hno
      refine ⟨hscene, fun b hb ↦ ?_, fun l hl ↦ ?_, hbounded⟩
      · have hcounted := h.counted b hb
        change Function.update x.state.count r (toInt (x.state.count r + 1)) b =
          outstanding _ (x.state.textOf pl b) ∧ 0 < outstanding _ (x.state.textOf pl b)
        rw [outstanding_link]
        rcases eq_or_ne b r with rfl | hne
        · rw [htext] at hcounted ⊢
          rw [Function.update_self, if_pos rfl, hcounted.1, toInt_eq_self (by omega) (by omega)]
          exact ⟨by push_cast; rfl, by omega⟩
        · have htext' : orig ≠ x.state.textOf pl b := fun heq ↦
            hne (h.eq_of_text hb hr (heq.symm.trans htext.symm))
          rw [Function.update_of_ne hne, if_neg htext']
          exact hcounted
      · rcases List.mem_cons.mp hl with rfl | hl
        · exact ⟨r, hr, rfl, htext⟩
        · exact h.linked l hl
  | none =>
      obtain ⟨s', r, hrun, hnew⟩ := hinterned.memstrlink_new hnul hfind (hsane hfind)
      obtain ⟨rfl, rfl⟩ : s' = s ∧ r + pl.bufOffset = result := by simpa [hrun] using hstep
      have hnone := (hinterned.findString_eq_none_iff hnul).mp hfind
      have hzero : outstanding x.clients orig = 0 := by
        refine Nat.eq_zero_of_not_pos fun hpos ↦ ?_
        obtain ⟨l, hl, rfl⟩ := outstanding_pos.mp hpos
        obtain ⟨b, hb, -, htext⟩ := h.linked l hl
        exact hnone b hb (congrArg fold htext)
      refine ⟨hscene, fun b hb ↦ ?_, fun l hl ↦ ?_, hbounded⟩
      · change s'.count b = outstanding _ (s'.textOf pl b) ∧ 0 < outstanding _ (s'.textOf pl b)
        rw [outstanding_link, hnew.count]
        rcases (hnew.mem_tree b).mp hb with rfl | hb
        · rw [hnew.text, if_pos rfl, hzero, Function.update_self]
          exact ⟨rfl, Nat.one_pos⟩
        · have hne : b ≠ r := fun heq ↦ hnew.fresh (heq ▸ hinterned.made b hb)
          have htext' : orig ≠ x.state.textOf pl b := fun heq ↦
            hnone b hb (congrArg fold heq.symm)
          rw [hnew.texts b hb, if_neg htext', Function.update_of_ne hne]
          exact h.counted b hb
      · rcases List.mem_cons.mp hl with rfl | hl
        · exact ⟨r, (hnew.mem_tree r).mpr (Or.inl rfl), rfl, hnew.text⟩
        · obtain ⟨b, hb, heq, htext⟩ := h.linked l hl
          exact ⟨b, (hnew.mem_tree b).mpr (Or.inr hb), heq, (hnew.texts b hb).trans htext⟩

/-- `memfree` of a link. -/
theorem unlink (h : LinkInv pl x) {l : ℤ × List UInt8} (hl : l ∈ x.clients.links) {later : ℤ}
    (hle : x.now ≤ later)
    (hempty : outstanding x.clients l.2 = 1 → l.2 ≠ [] → outstanding x.clients [] = 0) :
    ∃ r ∈ inorder x.state.stringTree, x.state.textOf pl r = l.2 ∧
      memfree pl x.state later l.1 = some (if outstanding x.clients l.2 = 1 then x.state.unlink pl r
        else x.state.setCount r (x.state.count r - 1)) := by
  obtain ⟨r, hr, haddr, htext⟩ := h.linked l hl
  have hinterned := h.scene.interned.mono hle
  have hcount := h.counted r hr
  have hbound := h.bounded l.2
  have hbuf := pl.buf_inside
  have hitem := pl.item_before_buf
  have hitem' := pl.itemOffset_pos
  rw [htext] at hcount
  have hto : toInt (x.state.count r - 1) = x.state.count r - 1 :=
    toInt_eq_self (by omega) (by omega)
  have hfind : x.state.findString pl (cstring x.state.mem l.1) = some r := by
    rw [haddr]
    exact (hinterned.findString_eq_some_iff (nul_not_mem_cstring _ _)).mpr ⟨hr, rfl⟩
  obtain ⟨hpos, -⟩ := hinterned.inside_address (hinterned.made r hr)
    (by omega : (0 : ℤ) < pl.bufOffset) (by omega)
  refine ⟨r, hr, htext, ?_⟩
  rw [memfree, memfreeLoop_found (by omega) hfind, hto]
  split_ifs with hlast hone hone
  · -- the record has left the tree, and `""` is not on it either
    have hnodes := hinterned.numNodes_unlink hr
    have htexts := hinterned.textsKept (hinterned.unlink_released hr)
    have hnull : (x.state.unlink pl r).mem (r + pl.itemOffset) = 0 := if_pos (by omega)
    rw [← hnodes]
    refine (hinterned.unlink hr).memfreeLoop_item (hinterned.made r hr) hnull (fun b hb heq ↦ ?_) _
    obtain ⟨hne, hb⟩ := hinterned.mem_unlink.mp hb
    rw [htexts b hb] at heq
    by_cases hnil : l.2 = []
    · exact hne (h.eq_of_text hb hr (by rw [heq, htext, hnil]))
    · have hpos' := (h.counted b hb).2
      rw [heq, hempty hone hnil] at hpos'
      exact absurd hpos' (lt_irrefl 0)
  · omega
  · omega
  · rfl

/-- After the `memfree` of a link there is one link to its text less. -/
theorem outstanding_freed (h : LinkInv pl x) {l : ℤ × List UInt8} (hl : l ∈ x.clients.links)
    (text : List UInt8) :
    outstanding ((Op.memfree l.1).clientsAfter pl x.clients 0) text +
      (if l.2 = text then 1 else 0) = outstanding x.clients text := by
  refine outstanding_erase ⟨l, hl, rfl⟩ (fun l' hl' heq ↦ ?_) (without x.clients.raw l.1) text
  obtain ⟨r, -, haddr, htext⟩ := h.linked l hl
  obtain ⟨b, -, haddr', htext'⟩ := h.linked l' hl'
  obtain rfl : b = r := by omega
  exact htext'.symm.trans htext

/-- After the `memfree` of a link. -/
theorem freed (h : LinkInv pl x) {l : ℤ × List UInt8} (hl : l ∈ x.clients.links) {s : State}
    (hempty : outstanding x.clients l.2 = 1 → l.2 ≠ [] → outstanding x.clients [] = 0)
    (hrun : memfree pl x.state x.now l.1 = some s)
    (hscene : SceneInv pl ⟨x.now, s, (Op.memfree l.1).clientsAfter pl x.clients 0⟩) :
    LinkInv pl ⟨x.now, s, (Op.memfree l.1).clientsAfter pl x.clients 0⟩ := by
  obtain ⟨r, hr, htext, hfree⟩ := h.unlink hl le_rfl hempty
  have hout := h.outstanding_freed hl
  have hbounded : ∀ text,
      outstanding ((Op.memfree l.1).clientsAfter pl x.clients 0) text < 2 ^ 31 :=
    fun text ↦ lt_of_le_of_lt (by have := hout text; omega) (h.bounded text)
  have hself := hout l.2
  rw [if_pos rfl] at hself
  have hother : ∀ b ∈ inorder x.state.stringTree, b ≠ r → l.2 ≠ x.state.textOf pl b :=
    fun b hb hne heq ↦ hne (h.eq_of_text hb hr (heq.symm.trans htext.symm))
  have hkept : ∀ b ∈ inorder x.state.stringTree, b ≠ r →
      outstanding ((Op.memfree l.1).clientsAfter pl x.clients 0) (x.state.textOf pl b) =
        outstanding x.clients (x.state.textOf pl b) := fun b hb hne ↦ by
    have h₁ := hout (x.state.textOf pl b)
    rwa [if_neg (hother b hb hne)] at h₁
  rw [hrun] at hfree
  split_ifs at hfree with hone
  · obtain rfl := Option.some.inj hfree
    have hinterned := h.scene.interned
    have htexts := hinterned.textsKept (hinterned.unlink_released hr)
    refine ⟨hscene, fun b hb ↦ ?_, fun l' hl' ↦ ?_, hbounded⟩
    · obtain ⟨hne, hb⟩ := hinterned.mem_unlink.mp hb
      change Function.update x.state.count r _ b = _ ∧ _
      simp only [htexts b hb, hkept b hb hne, Function.update_of_ne hne]
      exact h.counted b hb
    · obtain ⟨b, hb, haddr', htext'⟩ := h.linked l' (List.mem_of_mem_eraseP hl')
      have hne : b ≠ r := by
        rintro rfl
        have hpos : 0 < outstanding ((Op.memfree l.1).clientsAfter pl x.clients 0) l.2 :=
          outstanding_pos.mpr ⟨l', hl', htext'.symm.trans htext⟩
        omega
      exact ⟨b, hinterned.mem_unlink.mpr ⟨hne, hb⟩, haddr', (htexts b hb).trans htext'⟩
  · obtain rfl := Option.some.inj hfree
    refine ⟨hscene, fun b hb ↦ ?_, fun l' hl' ↦ ?_, hbounded⟩
    · have hcounted := h.counted b hb
      change Function.update x.state.count r (x.state.count r - 1) b =
        outstanding ((Op.memfree l.1).clientsAfter pl x.clients 0) (x.state.textOf pl b) ∧
          0 < outstanding ((Op.memfree l.1).clientsAfter pl x.clients 0) (x.state.textOf pl b)
      rcases eq_or_ne b r with rfl | hne
      · rw [htext] at hcounted ⊢
        rw [Function.update_self]
        omega
      · rw [hkept b hb hne, Function.update_of_ne hne]
        exact hcounted
    · exact h.linked l' (List.mem_of_mem_eraseP hl')

theorem mono (h : LinkInv pl x) {later : ℤ} (hle : x.now ≤ later) :
    LinkInv pl { x with now := later } :=
  ⟨h.scene.mono hle, h.counted, h.linked, h.bounded⟩

/-- `memfree` of no buffer does nothing. -/
theorem memfree_null (h : LinkInv pl x) : memfree pl x.state x.now 0 = some x.state := by
  have hunknown := h.scene.interned.inv.memfree_unknown le_rfl (by norm_num)
    (fun n hn ↦ absurd (h.scene.interned.inv.handed_inside hn).1 (lt_irrefl _)) x.now
  rw [memfree, memfreeLoop_none fun hne ↦ absurd rfl hne, hunknown]
  rfl

/-- One careful call. -/
theorem step (h : LinkInv pl x) {op : Op} {result : ℤ} {s : State}
    (hallowed : op.Allowed pl x.state x.clients) (hcareful : op.Careful pl x)
    (hsane : op.Sane pl x.state) (hstep : op.step pl x.now x.state = some (s, result)) :
    LinkInv pl ⟨x.now, s, op.clientsAfter pl x.clients result⟩ := by
  have hscene := h.scene.step hallowed hsane hstep
  cases op with
  | memalloc size blk =>
      rcases Nat.eq_zero_or_pos size with rfl | hpos
      · obtain ⟨rfl, -⟩ : x.state = s ∧ 0 = result := by
          simpa [Op.step, memalloc, Allocator.memalloc] using hstep
        exact h
      · obtain ⟨s', p, hrun, hbuffered⟩ := h.scene.interned.memalloc hpos hsane
        obtain ⟨rfl, rfl⟩ : s' = s ∧ p = result := by simpa [Op.step, hrun] using hstep
        refine h.kept hscene hbuffered.tree hbuffered.count hbuffered.texts ?_
        simp [Op.clientsAfter, hpos.ne']
  | memstrdup orig blk =>
      obtain ⟨s', p, hrun, hbuffered⟩ := h.scene.interned.memstrdup hsane
      obtain ⟨rfl, rfl⟩ : s' = s ∧ p = result := by simpa [Op.step, hrun] using hstep
      exact h.kept hscene hbuffered.tree hbuffered.count hbuffered.texts rfl
  | memstrlink orig blk => exact h.link hallowed hcareful.1 hcareful.2 hsane hstep
  | memstrnlink orig len blk blk' =>
      obtain rfl : len = 0 := hcareful
      obtain ⟨rfl, -⟩ : x.state = s ∧ 0 = result := by simpa [Op.step, memstrnlink] using hstep
      exact h
  | memfree p =>
      obtain ⟨s', hrun, heq⟩ :
          ∃ s', memfree pl x.state x.now p = some s' ∧ s' = s ∧ 0 = result := by
        simpa [Op.step, Option.bind_eq_some_iff] using hstep
      obtain ⟨rfl, rfl⟩ := heq
      rcases hcareful with rfl | ⟨hraw, hfind⟩ | ⟨l, hl, rfl, hempty⟩
      · obtain rfl : x.state = s' := by simpa [h.memfree_null] using hrun
        exact h.kept hscene rfl rfl (fun _ _ ↦ rfl) (h.scene.links_freed (Or.inl rfl))
      · obtain ⟨⟨q, n⟩, hmem, rfl⟩ := List.mem_map.mp hraw
        obtain ⟨a, f, hrun', -⟩ := h.scene.memfree_raw hmem le_rfl hfind
        obtain rfl := Option.some.inj (hrun'.symm.trans hrun)
        exact h.kept hscene rfl rfl (fun _ _ ↦ rfl) (h.scene.links_freed (Or.inr ⟨n, hmem⟩))
      · exact h.freed hl hempty hrun hscene
  | write p bytes =>
      obtain ⟨rfl, -⟩ := Prod.mk.inj (Option.some.inj hstep)
      exact h.kept hscene rfl rfl (h.scene.interned.write hallowed).2 rfl
  | coalesce =>
      obtain ⟨a, hrun, -⟩ := h.scene.interned.coalesce
      obtain ⟨rfl, -⟩ : { x.state with allocator := a } = s ∧ 0 = result := by
        simpa [Op.step, hrun] using hstep
      exact h.kept hscene rfl rfl (fun _ _ ↦ rfl) rfl
  | memrealloc ptr size blk => exact hallowed.elim

end LinkInv

theorem StringRun.linkInv (hrun : StringRun pl (fun x op ↦ op.Careful pl x) x) : LinkInv pl x := by
  obtain ⟨now, hrun⟩ := hrun
  induction hrun with
  | refl =>
      exact ⟨sceneInv_initial pl now, by simp [Scene.initial, initial], by simp [Scene.initial],
        by simp [Scene.initial, outstanding]⟩
  | tail _ hmoves ih =>
      obtain ⟨hle, hallowed, hcareful, hsane, hstep⟩ := hmoves
      exact (ih.mono hle).step hallowed hcareful hsane hstep

end HavokMud.Memory
